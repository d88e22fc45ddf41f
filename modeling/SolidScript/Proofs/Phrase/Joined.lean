import SolidScript.Proofs.Matching.Tables
import SolidScript.Proofs.Phrase.Inside

/-!
# Phrase — a source with another one after it

When another source follows on a new line, the tokens of a source stay where they are, and what is
tried at a place among its statements comes to the same (`same_of_tried`).  At the end of a
statement, where an `else` is looked for, there is none in the other source either, as no source
that is read starts with one.
-/

namespace SolidScript

/-- The place in its source when another source follows that on a new line. -/
def Cursor.joined (x : Text) (here : Cursor) : Cursor := ⟨here.offset, here.rest ++ '\n' :: x⟩

theorem Cursor.In.joined {source : Text} {here : Cursor} (h : here.In source) (x : Text) :
    (here.joined x).In (source ++ '\n' :: x) := by
  obtain ⟨ho, hr⟩ := h
  refine ⟨?_, ?_⟩
  · change here.offset ≤ (source ++ '\n' :: x).length
    rw [List.length_append]
    omega
  · change here.rest ++ '\n' :: x = (source ++ '\n' :: x).drop here.offset
    rw [List.drop_append_of_le_length ho, hr]

namespace Grammar
open Piece (word)

variable {x : Text} {here next stop : Cursor} {k : Token} {ks : List Token}

/-! ### Tokens -/

theorem Laid.joined (h : Laid here ks stop) (apart : ks.IsChain Token.Apart)
    (hv : stop.rest.head? = some '*' → ∀ k ∈ ks.getLast?, '*' ∉ k.joins) (x : Text) :
    Laid (here.joined x) ks (stop.joined x) := by
  refine Laid.cut (b := here.rest) (v := stop.rest) (s := []) ?_ apart ?_ hv
  · rwa [List.append_nil, List.append_nil]
  · intro c w he
    rw [← (List.cons.inj he).1]
    decide

/-- The first of tokens that stay takes the same text. -/
theorem At.joined (hat : At here k next) (h : Laid (here.joined x) (k :: ks) (stop.joined x))
    (h' : Laid (next.joined x) ks (stop.joined x)) : At (here.joined x) k (next.joined x) := by
  obtain ⟨m, hat', hl'⟩ := laid_cons_iff.1 h
  have offset : m.offset = next.offset := by
    have stop := hat.rest.2.2.2
    have stop' := hat'.rest.2.2.2
    omega
  have length : m.rest.length = (next.joined x).rest.length := by
    have total := hl'.offset_add
    have total' := h'.offset_add
    have same : (next.joined x).offset = next.offset := rfl
    omega
  obtain ⟨w, hw⟩ := (Laid.cons hat (.nil next)).exists_rest
  obtain ⟨w', hw'⟩ := (Laid.cons hat' (.nil m)).exists_rest
  have rest : m.rest = (next.joined x).rest := by
    have whole : w' ++ m.rest = w ++ (next.joined x).rest := by
      rw [← hw', Cursor.joined, Cursor.joined, hw, List.append_assoc]
    exact (List.append_inj' whole length).2
  obtain ⟨o, r⟩ := m
  obtain rfl : o = next.offset := offset
  obtain rfl : r = (next.joined x).rest := rest
  exact hat'

/-- No statement ends in what a star must not follow. -/
theorem not_joins_of_derives (hd : Derives (.rule .statement) ks) :
    ∀ k ∈ ks.getLast?, '*' ∉ k.joins := fun k hk hm => by
  have last := (fits_of_derives hd).last k hk hm
  cases last

/-- A statement stays where another source follows. -/
theorem Laid.joined_of_derives (hd : Derives (.rule .statement) ks) (h : Laid here ks stop)
    (x : Text) : Laid (here.joined x) ks (stop.joined x) :=
  h.joined (fits_of_derives hd).chain (fun _ => not_joins_of_derives hd) x

/-- The tokens of a statement stay where another source follows. -/
theorem At.joined_of_derives {ls ms : List Token} (hd : Derives (.rule .statement) (ls ++ k :: ms))
    (hat : At here k next) (hl : Laid next ms stop) (x : Text) :
    At (here.joined x) k (next.joined x) := by
  have chain := (List.isChain_append.1 (fits_of_derives hd).chain).2.1
  have last {js : List Token} (hne : js ≠ []) (hs : ∃ is, ls ++ k :: ms = is ++ js) :
      ∀ k ∈ js.getLast?, '*' ∉ k.joins := by
    obtain ⟨is, he⟩ := hs
    have all := not_joins_of_derives hd
    rwa [he, List.getLast?_append_of_ne_nil _ hne] at all
  have whole := (Laid.cons hat hl).joined chain (fun _ => last (by simp) ⟨ls, rfl⟩) x
  have rest := hl.joined chain.tail (fun _ => by
    cases ms with
    | nil => simp
    | cons m ms => exact last (by simp) ⟨ls ++ [k], by simp⟩) x
  exact hat.joined whole rest

/-- A reference stays where another source follows. -/
theorem At.joined_of_reference (hat : At here k next) (hk : k.IsReference) (x : Text) :
    At (here.joined x) k (next.joined x) := by
  have joins : k.joins = [] := if_neg fun symbol => by
    rcases hk with h | h <;> rw [symbol] at h <;> cases h
  have single := (Laid.cons hat (.nil next)).joined (.singleton k) (fun _ l hl => by
    have same : k = l := Option.some.inj hl
    rw [← same, joins]
    simp) x
  exact hat.joined single (.nil _)

/-! ### Terminals -/

theorem head_joined {c : Char} (h : here.rest.head? = some c) :
    (here.joined x).rest.head? = some c := by
  obtain ⟨w, hw⟩ := List.head?_eq_some_iff.1 h
  rw [Cursor.joined, hw]
  rfl

/-- A place in a source, and the same place where another source follows. -/
def Joined (source x : Text) (a b : Cursor) : Prop := a.In source ∧ b = a.joined x

/-- At a token nothing changes up to where the token starts. -/
theorem afterSkip_joined (h : At here k next) (h' : At (here.joined x) k (next.joined x)) :
    afterSkip (here.joined x) = (afterSkip here).joined x := by
  obtain ⟨rest, -, start, -⟩ := h.rest
  obtain ⟨rest', -, start', -⟩ := h'.rest
  have offset : (afterSkip (here.joined x)).offset = (afterSkip here).offset := by
    rw [← start, ← start']
  have text : (afterSkip (here.joined x)).rest = (afterSkip here).rest ++ '\n' :: x := by
    rw [rest, rest', Cursor.joined, List.append_assoc]
  generalize afterSkip (here.joined x) = there at offset text
  obtain ⟨o, r⟩ := there
  exact Cursor.mk.injEq .. ▸ ⟨offset, text⟩

variable {source : Text} {t : Terminal}

/-- A terminal that matches nothing but tokens does the same where the same token stands. -/
theorem same_of_at {R : Cursor → Cursor → Prop} {here' next' : Cursor} (h : At here k next)
    (h' : At here' k next') (hr : R next next') (ht : isFaithful t = true)
    (hk : k.IsReference ↔ t = .useFile ∨ t = .includeFile) : SameTerminal R t here here' := by
  by_cases ha : t.Accepts k
  · rw [SameTerminal, h.terminal ht ha, h'.terminal ht ha]
    exact .some hr
  · have none {there after : Cursor} (hat : At there k after) : Run.terminal t there = none := by
      cases hm : Run.terminal t there with
      | none => rfl
      | some o =>
        obtain ⟨l, hl, hal, -⟩ := at_of_terminal ht hm
        obtain ⟨rfl, -⟩ := hat.eq hl (hk.trans (Terminal.isReference_iff_of_accepts hal).symm)
        exact absurd hal ha
    rw [SameTerminal, none h, none h']
    exact .none

/-- A terminal that matches one character does the same where the same character comes next. -/
theorem same_of_single {P : Char → Prop}
    (reads : ∀ {here there : Cursor} {ts : List Tree}, Run.terminal t here = some (ts, there) ↔
      ∃ c r, P c ∧ (afterSkip here).rest = c :: r ∧ ts = [.leaf t (afterSkip here).offset [c]] ∧
        there = ⟨(afterSkip here).offset + 1, r⟩)
    (hin : here.In source) (hs : afterSkip (here.joined x) = (afterSkip here).joined x)
    (hne : (afterSkip here).rest ≠ []) :
    SameTerminal (Joined source x) t here (here.joined x) := by
  obtain ⟨c, r, hc⟩ := List.exists_cons_of_ne_nil hne
  have hc' : (afterSkip (here.joined x)).rest = c :: (r ++ '\n' :: x) := by
    rw [hs, Cursor.joined, hc, List.cons_append]
  unfold SameTerminal
  by_cases hp : P c
  · have found := reads.2 ⟨c, r, hp, hc, rfl, rfl⟩
    have found' := reads.2 ⟨c, _, hp, hc', rfl, rfl⟩
    rw [found, found']
    refine .some ⟨outcome_in (p := .term t) hin found, ?_⟩
    rw [hs]
    rfl
  · have none {there : Cursor} {w : Text} (h : (afterSkip there).rest = c :: w) :
        Run.terminal t there = none := by
      cases hm : Run.terminal t there with
      | none => rfl
      | some o =>
        obtain ⟨d, w', hd, he, -⟩ := reads.1 hm
        rw [h] at he
        cases he
        exact absurd hd hp
    rw [none hc, none hc']
    exact .none

theorem terminal_assign_eq_some_iff {here there : Cursor} {ts : List Tree} :
    Run.terminal (.mark .assign) here = some (ts, there) ↔
      ∃ c r, c = '=' ∧ (afterSkip here).rest = c :: r ∧
        ts = [.leaf (.mark .assign) (afterSkip here).offset [c]] ∧
        there = ⟨(afterSkip here).offset + 1, r⟩ := by
  rw [terminal_mark_eq_some_iff]
  simp [Mark.char]

/-- A terminal does the same at a token that stays. -/
theorem same_of_joined (hin : here.In source) (h : At here k next)
    (h' : At (here.joined x) k (next.joined x)) (hk : ¬ k.IsReference)
    (ht : looksAtToken t = true) : SameTerminal (Joined source x) t here (here.joined x) := by
  have skip := afterSkip_joined h h'
  have ne : (afterSkip here).rest ≠ [] := by simp [h.rest.1, h.rest.2.1]
  simp only [looksAtToken, Bool.or_eq_true, beq_iff_eq] at ht
  rcases ht with (hp | rfl) | rfl
  · refine same_of_at h h' ⟨h.inside hin, rfl⟩ (by simp [isFaithful, hp]) (iff_of_false hk ?_)
    rintro (rfl | rfl) <;> cases hp
  · exact same_of_single (P := (· ∈ ['*', '!', '#', '%'])) terminal_modifier_eq_some_iff hin skip ne
  · exact same_of_single (P := (· = '=')) terminal_assign_eq_some_iff hin skip ne

/-! ### Statements -/

/-- Statements stand from the place on, and nothing else up to the other place. -/
def Standing (stop here : Cursor) : Prop :=
  ∃ ks ss, Laid here ks stop ∧ Says (.script ss) ks ∧ (∀ s ∈ ss, (Node.statement s).Sealed) ∧
    ks.IsChain Token.Apart

/-- What a statement at the top is: a reference, or a statement like others. -/
inductive Heads (here next : Cursor) : Prop where
  | reference {k : Token} (hat : At here k next) (hk : k.IsReference)
  | statement {ks : List Token} (hd : Derives (.rule .statement) ks) (hl : Laid here ks next)

theorem says_statement_of_derives (hd : Derives (.rule .statement) ks) (hl : Laid here ks next) :
    ∃ s, Says (.statement s) ks := by
  have proper : ∀ k ∈ ks, Proper k := fun k hk => by
    obtain ⟨_, _, hat⟩ := hl.exists_at hk
    exact hat.proper
  obtain ⟨ts, -, t, s, -, -, said⟩ := reads_of_derives (p := .rule .statement) rfl proper hd
  exact ⟨s, said⟩

/-- Where statements stand, one is matched at the top and statements stand after it, up to where
nothing is left. -/
theorem Standing.step (h : Standing stop here) (hend : (afterSkip stop).rest = [])
    (hne : here ≠ stop) : ∃ ts next, outcome (.rule .topStatement) here = some (ts, next) ∧
      Heads here next ∧ Standing stop next := by
  obtain ⟨ks, ss, hl, said, sealed, apart⟩ := h
  cases said with
  | emptyScript => exact absurd (laid_nil_iff.1 hl).symm hne
  | ordinary said rest =>
    rw [List.forall_mem_cons] at sealed
    obtain ⟨m, hl, hl'⟩ := laid_append_iff.1 hl
    have stands := ready_of_says said sealed.1 hl fun _ => noElse_of_script rest hl' hend
    obtain ⟨t, ht, -⟩ := stands.statement
    obtain ⟨ls, laid, -, derived⟩ := outcome_derives (by decide) ht
    exact ⟨_, m, topStatement_of_statement said hl ht, .statement derived laid,
      _, _, hl', rest, sealed.2, (List.isChain_append.1 apart).2.1⟩
  | useFile hk rest =>
    rw [List.forall_mem_cons] at sealed
    obtain ⟨m, hat, hl⟩ := laid_cons_iff.1 hl
    exact ⟨_, m, topStatement_of_useFile hk hat, .reference hat (.inl hk), _, _, hl, rest, sealed.2,
      apart.tail⟩
  | includeFile hk rest =>
    rw [List.forall_mem_cons] at sealed
    obtain ⟨m, hat, hl⟩ := laid_cons_iff.1 hl
    exact ⟨_, m, topStatement_of_includeFile hk hat, .reference hat (.inr hk), _, _, hl, rest,
      sealed.2, apart.tail⟩

/-- Tokens that say scripts say one after the other. -/
theorem says_append {ss ts : Script} {ls : List Token} (h : Says (.script ss) ks)
    (h' : Says (.script ts) ls) : Says (.script (ss ++ ts)) (ks ++ ls) := by
  induction ss generalizing ks with
  | nil =>
    cases h
    exact h'
  | cons s ss ih =>
    cases h with
    | ordinary said rest =>
      rw [List.append_assoc]
      exact .ordinary said (ih rest)
    | useFile hk rest => exact .useFile hk (ih rest)
    | includeFile hk rest => exact .includeFile hk (ih rest)

/-- Tokens that are moved say a script that is moved. -/
theorem says_moved {ts : Script} {ls : List Token} (h : Says (.script ts) ls) (d : Nat) :
    Says (.script (Script.moved d ts)) (ls.map (Token.moved d)) := by
  obtain ⟨us, said, same⟩ := h.alike (f := (·.map (· + d))) (g := id) rfl (allAlike_moved d ls)
  rw [← Statement.mapPlacesList_eq_map, ← Statement.mapPlacesList_eq_map,
    Statement.mapPlacesList_id] at same
  rwa [Script.moved, same]

/-- Statements up to where nothing is left, and then those of the source that follows. -/
theorem says_joined {ss ts : Script} {ls : List Token} (hl : Laid here ks stop)
    (said : Says (.script ss) ks) (apart : ks.IsChain Token.Apart)
    (hend : (afterSkip stop).rest = []) (hx : LaidToEnd (.start x) ls)
    (said' : Says (.script ts) ls) :
    ∃ ms, LaidToEnd (here.joined x) ms ∧
      Says (.script (ss ++ Script.moved (here.offset + here.rest.length + 1) ts)) ms := by
  obtain ⟨g, hg, -⟩ := exists_gap stop
  obtain ⟨whole, isGap, -⟩ := gap_eq_some_iff.1 hg
  rw [hend, List.append_nil] at whole
  rw [hend, ← whole] at isGap
  have laid := laidToEnd_splice (b := here.rest) (v := stop.rest) (s := [])
    (by rwa [List.append_nil, List.append_nil]) apart isGap hx
  exact ⟨_, laid, says_append said (says_moved said' _)⟩

/-- No `else` stands where statements do, nor in front of the source that follows them. -/
theorem Standing.noElse (h : Standing stop here) (hend : (afterSkip stop).rest = [])
    {ls : List Token} {ts : Script} (hx : LaidToEnd (.start x) ls) (said : Says (.script ts) ls) :
    NoElse here ∧ NoElse (here.joined x) := by
  obtain ⟨ks, ss, hl, said', -, apart⟩ := h
  obtain ⟨ms, ⟨last, laid, hlast⟩, both⟩ := says_joined hl said' apart hend hx said
  exact ⟨noElse_of_script said' hl hend, noElse_of_script both laid hlast⟩

/-! ### What is tried among the statements -/

/-- The piece is tried at the place when one of the statements up to `stop` is matched. -/
def Tried (stop : Cursor) (p : Piece) (there : Cursor) : Prop :=
  ∃ here, Standing stop here ∧ here ≠ stop ∧ Visits (.rule .topStatement) here p there

/-- A place where a piece is tried among statements that another source follows. -/
inductive Spot (x : Text) (stop : Cursor) (p : Piece) (there : Cursor) : Prop where
  | top (hp : p = .rule .topStatement) (ho : there.offset < stop.offset)
  | token {k : Token} {next : Cursor} (hp : p.inStatement = true) (hk : ¬ k.IsReference)
      (hat : At there k next) (hat' : At (there.joined x) k (next.joined x))
      (ho : there.offset < stop.offset)
  | stray (hp : p ∈ strays) (hs : there.rest.head? = some '=') (ho : there.offset < stop.offset)
  | ended (hp : p = word .elseWord) (h : NoElse there) (h' : NoElse (there.joined x))
  | reference {t : Terminal} {k : Token} {next : Cursor} (ht : t = .useFile ∨ t = .includeFile)
      (hp : p = .term t) (hk : k.IsReference) (hat : At there k next)
      (hat' : At (there.joined x) k (next.joined x))
  | noReference {t : Terminal} (ht : t = .useFile ∨ t = .includeFile) (hp : p = .term t)
      (h : Run.terminal t there = none) (h' : Run.terminal t (there.joined x) = none)

/-- What is tried for a statement at the top: a reference, or what is tried for a statement. -/
theorem visits_topStatement {p : Piece} {there : Cursor}
    (h : Visits (.rule .topStatement) here p there) :
    p = .rule .topStatement ∧ there = here ∨ p = .term .useFile ∧ there = here ∨
      Run.terminal .useFile here = none ∧ (p = .term .includeFile ∧ there = here ∨
        Run.terminal .includeFile here = none ∧ Visits (.rule .statement) here p there) := by
  induction h with
  | start => exact .inl ⟨rfl, rfl⟩
  | @enter r q there next _ e ih =>
    rcases ih with ⟨hr, rfl⟩ | ⟨hr, -⟩ | ⟨hu, ⟨hr, -⟩ | ⟨hi, hv⟩⟩
    · cases hr
      generalize hq : Rule.topStatement.production = production at e
      cases e with
      | @choice _ before after _ hb =>
        have pieces := Production.choice.inj hq
        rcases before with _ | ⟨b, _ | ⟨c, _ | ⟨d, before⟩⟩⟩ <;>
          simp only [List.nil_append, List.cons_append, List.cons.injEq, List.nil_eq,
            List.append_eq_nil_iff, reduceCtorEq, and_false] at pieces
        · exact .inr (.inl ⟨pieces.1.symm, rfl⟩)
        · obtain ⟨rfl, rfl, -⟩ := pieces
          exact .inr (.inr ⟨hb (.term .useFile) (by simp), .inl ⟨rfl, rfl⟩⟩)
        · obtain ⟨rfl, rfl, rfl, -⟩ := pieces
          exact .inr (.inr ⟨hb (.term .useFile) (by simp),
            .inr ⟨hb (.term .includeFile) (by simp), .start⟩⟩)
      | sequence | maybe | many | chain | link => cases hq
    · cases hr
    · cases hr
    · exact .inr (.inr ⟨hu, .inr ⟨hi, hv.enter e⟩⟩)

theorem offset_lt_of_derives (hd : Derives (.rule .statement) ks) (hl : Laid here ks stop) :
    here.offset < stop.offset := by
  cases ks with
  | nil => exact absurd ((fits_of_derives hd).empty rfl) (by decide)
  | cons k ks =>
    obtain ⟨next, hat, hl⟩ := laid_cons_iff.1 hl
    exact Nat.lt_of_lt_of_le hat.offset_lt hl.offset_le

theorem Standing.offset_le (h : Standing stop here) : here.offset ≤ stop.offset := by
  obtain ⟨ks, ss, hl, -⟩ := h
  exact hl.offset_le

/-- What is tried among statements is tried at one of these places. -/
theorem spot_of_tried {p : Piece} {there : Cursor} {ls : List Token} {ts : Script}
    (h : Tried stop p there) (hend : (afterSkip stop).rest = []) (hx : LaidToEnd (.start x) ls)
    (said : Says (.script ts) ls) : Spot x stop p there := by
  obtain ⟨here, standing, hne, visits⟩ := h
  obtain ⟨_, next, -, head, after⟩ := standing.step hend hne
  obtain ⟨noElse, noElse'⟩ := after.noElse hend hx said
  have bound := after.offset_le
  cases head with
  | @reference k hat hk =>
    have hat' := hat.joined_of_reference hk x
    have forth := hat.offset_lt
    have matched (t : Terminal) (hr : t = .useFile ∨ t = .includeFile) (ha : t.Accepts k) :
        Run.terminal t here ≠ none := by
      rw [hat.terminal (by rcases hr with rfl | rfl <;> rfl) ha]
      simp
    rcases visits_topStatement visits with ⟨rfl, rfl⟩ | ⟨rfl, rfl⟩ | ⟨hu, ⟨rfl, rfl⟩ | ⟨hi, -⟩⟩
    · exact .top rfl (by omega)
    · exact .reference (.inl rfl) rfl hk hat hat'
    · exact .reference (.inr rfl) rfl hk hat hat'
    · exact (hk.elim (fun h => matched _ (.inl rfl) h hu) fun h => matched _ (.inr rfl) h hi).elim
  | @statement ks hd hl =>
    have forth := offset_lt_of_derives hd hl
    obtain ⟨s, said⟩ := says_statement_of_derives hd hl
    have hl' := hl.joined_of_derives hd x
    have noReference {t : Terminal} (ht : t = .useFile ∨ t = .includeFile) :
        Spot x stop (.term t) here :=
      .noReference ht rfl (reference_none ht said hl) (reference_none ht said hl')
    rcases visits_topStatement visits with ⟨rfl, rfl⟩ | ⟨rfl, rfl⟩ | ⟨-, ⟨rfl, rfl⟩ | ⟨-, hv⟩⟩
    · exact .top rfl (by omega)
    · exact noReference (.inl rfl)
    · exact noReference (.inr rfl)
    · rcases inside_of_visits hd hl noElse hv with ⟨k, ms, ls, after, rfl, -, hat, laid⟩ |
        ⟨hp, hs, ho⟩ | ⟨rfl, rfl⟩
      · have on := laid.offset_le
        have past := hat.offset_lt
        exact .token (inStatement_of_visits hv) (not_isReference_of_derives hd k (by simp)) hat
          (hat.joined_of_derives hd laid x) (by omega)
      · exact .stray hp hs (by omega)
      · exact .ended rfl noElse noElse'

/-- What is tried among statements comes to the same where another source follows them. -/
theorem same_of_tried {source : Text} {t : Terminal} {a b : Cursor} {ls : List Token} {ts : Script}
    (h : Tried stop (.term t) a) (hj : Joined source x a b) (hend : (afterSkip stop).rest = [])
    (hx : LaidToEnd (.start x) ls) (said : Says (.script ts) ls) :
    SameTerminal (Joined source x) t a b := by
  obtain ⟨hin, rfl⟩ := hj
  have neither (h : Run.terminal t a = none) (h' : Run.terminal t (a.joined x) = none) :
      SameTerminal (Joined source x) t a (a.joined x) := by
    rw [SameTerminal, h, h']
    exact .none
  cases spot_of_tried h hend hx said with
  | top hp => cases hp
  | token hp hk hat hat' =>
    refine same_of_joined hin hat hat' hk ?_
    revert hp
    rcases t with _ | _ | _ | _ | _ | _ | (_ | _) | (_ | _) | _ <;> decide
  | stray hp hs =>
    exact neither (terminal_none_of_stray hp hs) (terminal_none_of_stray hp (head_joined hs))
  | ended hp he he' =>
    cases hp
    exact neither he he'
  | @reference u k next ht hp hk hat hat' =>
    cases hp
    exact same_of_at hat hat' ⟨hat.inside hin, rfl⟩ (by rcases ht with rfl | rfl <;> rfl)
      (iff_of_true hk ht)
  | noReference ht hp hn hn' =>
    cases hp
    exact neither hn hn'

/-- What no terminal is looked for behind is the same where another source follows. -/
theorem ahead_of_tried {source : Text} {r : Rule} {t : Terminal} {a b : Cursor} {ls : List Token}
    {ts : Script} (h : Tried stop (.rule r) a) (hr : r.production = .notAhead t)
    (hj : Joined source x a b) (hend : (afterSkip stop).rest = []) (hx : LaidToEnd (.start x) ls)
    (said : Says (.script ts) ls) : SameTerminal (Joined source x) t a b := by
  obtain ⟨hin, rfl⟩ := hj
  obtain ⟨rfl, rfl⟩ : r = .notAssign ∧ t = .mark .assign := by
    cases r <;> cases hr
    exact ⟨rfl, rfl⟩
  cases spot_of_tried h hend hx said with
  | top hp => cases hp
  | token hp hk hat hat' => exact same_of_joined hin hat hat' hk rfl
  | stray hp hs =>
    obtain ⟨w, hw⟩ := List.head?_eq_some_iff.1 hs
    obtain ⟨w', hw'⟩ := List.head?_eq_some_iff.1 (head_joined (x := x) hs)
    have stays {there : Cursor} {v : Text} (h : there.rest = '=' :: v) : afterSkip there = there :=
      afterSkip_of_gapPiece (h ▸ gapPiece_of_head (by decide) (by decide))
    refine same_of_single (P := (· = '=')) terminal_assign_eq_some_iff hin ?_ ?_
    · rw [stays hw, stays hw']
    · rw [stays hw, hw]
      simp
  | ended hp | reference _ hp | noReference _ hp => cases hp

/-- A rule is tried before the statements end. -/
theorem offset_lt_of_tried {r : Rule} {a : Cursor} {ls : List Token} {ts : Script}
    (h : Tried stop (.rule r) a) (hend : (afterSkip stop).rest = []) (hx : LaidToEnd (.start x) ls)
    (said : Says (.script ts) ls) : a.offset < stop.offset := by
  cases spot_of_tried h hend hx said with
  | top _ ho | token _ _ _ _ ho | stray _ _ ho => exact ho
  | ended hp | reference _ hp | noReference _ hp => cases hp

end Grammar

end SolidScript

import Mathlib.Data.List.Forall2
import SolidScript.Proofs.Phrase.Basic
import SolidScript.Proofs.Sealed
import SolidScript.Script.Places

/-!
# Phrase — the same tokens at other places

What tokens spell does not depend on where they stand: tokens of the same classes and texts spell
the same construct, with its places changed as theirs are.  Two ways of changing places, `f` and
`g`, say which places correspond: those that `f` and `g` send to the same.  With both constant only
classes and texts have to agree; with `f` a shift and `g` the identity the second tokens are the
first ones, moved.

* `Carries`: whatever tokens are like these spell a thing like this one.  Each rule of `Spells` and
  `Says` passes it on (`Phrase.Follows`, `Passage.Follows`).
* `Spells.alike`, `Says.alike`: tokens that are alike spell constructs that are.
* `Node.sealed_mapPlaces`: places do not matter to where an `else` belongs.
-/

namespace SolidScript

variable {f g : Place → Place}

/-! ### Places in lists -/

theorem Expr.mapPlacesList_eq_map (f : Place → Place) (es : List Expr) :
    Expr.mapPlacesList f es = es.map (Expr.mapPlaces f) := by
  induction es with
  | nil => rfl
  | cons e es ih => rw [Expr.mapPlacesList, ih, List.map_cons]

theorem Argument.mapPlacesList_eq_map (f : Place → Place) (as : List Argument) :
    Argument.mapPlacesList f as = as.map (Argument.mapPlaces f) := by
  induction as with
  | nil => rfl
  | cons a as ih => rw [Argument.mapPlacesList, ih, List.map_cons]

theorem Argument.mapPlacesGroups_eq_map (f : Place → Place) (gs : List (List Argument)) :
    Argument.mapPlacesGroups f gs = gs.map (List.map (Argument.mapPlaces f)) := by
  induction gs with
  | nil => rfl
  | cons g gs ih => rw [Argument.mapPlacesGroups, ih, Argument.mapPlacesList_eq_map, List.map_cons]

theorem Statement.mapPlacesList_eq_map (f : Place → Place) (ss : List Statement) :
    Statement.mapPlacesList f ss = ss.map (Statement.mapPlaces f) := by
  induction ss with
  | nil => rfl
  | cons s ss ih => rw [Statement.mapPlacesList, ih, List.map_cons]

namespace OfTree

/-- Changing places commutes with applying a modifier. -/
theorem mapPlaces_modify (f : Place → Place) (p : Place) (m : Modifier) (s : Statement) :
    (modify p m s).mapPlaces f = modify (f p) m (s.mapPlaces f) := by
  cases s with
  | call q n as c o => cases o <;> simp [modify, Statement.mapPlaces]
  | loop q as b o => cases o <;> simp [modify, Statement.mapPlaces]
  | _ => simp [modify, Statement.mapPlaces]

/-- Changing places commutes with applying a sign. -/
theorem signed?_mapPlaces (f : Place → Place) (p : Place) (t : Text) (e : Expr) :
    signed? (f p) t (e.mapPlaces f) = (signed? p t e).map (Expr.mapPlaces f) := by
  unfold signed?
  split <;> simp [Expr.mapPlaces]

end OfTree

/-! ### Tokens -/

/-- Tokens of one class and text at places that correspond. -/
structure Token.Alike (f g : Place → Place) (k l : Token) : Prop where
  kind : k.kind = l.kind
  text : k.text = l.text
  place : f (some k.start) = g (some l.start)

/-- A terminal that stands for a token stands for those that are like it. -/
theorem Token.Alike.accepts {k l : Token} (h : Token.Alike f g k l) {t : Terminal}
    (ha : t.Accepts k) : t.Accepts l := by
  obtain ⟨kind, text, m⟩ := k
  obtain ⟨kind', text', n⟩ := l
  obtain ⟨rfl, rfl, -⟩ := h
  cases t <;> exact ha

theorem Token.Alike.isCallee {k l : Token} (h : Token.Alike f g k l) (hk : k.IsCallee) :
    l.IsCallee :=
  hk.imp h.accepts (Or.imp h.accepts (Or.imp h.accepts h.accepts))

/-- Tokens that are alike, one by one. -/
abbrev AllAlike (f g : Place → Place) : List Token → List Token → Prop :=
  List.Forall₂ (Token.Alike f g)

theorem allAlike_nil {ls : List Token} : AllAlike f g [] ls ↔ ls = [] :=
  List.forall₂_nil_left_iff

theorem allAlike_cons {k : Token} {ks ls : List Token} :
    AllAlike f g (k :: ks) ls ↔
      ∃ l ls', Token.Alike f g k l ∧ AllAlike f g ks ls' ∧ ls = l :: ls' :=
  List.forall₂_cons_left_iff

/-- What is like tokens in a row is in two parts, like the parts of those. -/
theorem allAlike_append {ks ks' ls : List Token} :
    AllAlike f g (ks ++ ks') ls ↔
      ∃ l l', AllAlike f g ks l ∧ AllAlike f g ks' l' ∧ ls = l ++ l' := by
  constructor
  · intro h
    induction ks generalizing ls with
    | nil => exact ⟨[], ls, .nil, h, rfl⟩
    | cons k ks ih =>
      obtain ⟨l, ls', hl, hs, rfl⟩ := allAlike_cons.1 h
      obtain ⟨m, m', hm, hm', rfl⟩ := ih hs
      exact ⟨l :: m, m', .cons hl hm, hm', rfl⟩
  · rintro ⟨l, l', h, h', rfl⟩
    exact List.rel_append h h'

/-- A token by itself. -/
theorem allAlike_single {k : Token} {ls : List Token} :
    AllAlike f g [k] ls ↔ ∃ l, Token.Alike f g k l ∧ ls = [l] := by
  simp only [allAlike_cons, allAlike_nil]
  grind

/-- A token between others. -/
theorem allAlike_divided {k : Token} {ks ls ms : List Token} :
    AllAlike f g (ks ++ k :: ls) ms ↔ ∃ ks' k' ls', AllAlike f g ks ks' ∧ Token.Alike f g k k' ∧
      AllAlike f g ls ls' ∧ ms = ks' ++ k' :: ls' := by
  simp only [allAlike_append, allAlike_cons]
  grind

/-- A token before others that end in one. -/
theorem allAlike_bracketed {o c : Token} {ks ms : List Token} :
    AllAlike f g (o :: (ks ++ [c])) ms ↔ ∃ o' ks' c', Token.Alike f g o o' ∧ AllAlike f g ks ks' ∧
      Token.Alike f g c c' ∧ ms = o' :: (ks' ++ [c']) := by
  simp only [allAlike_cons, allAlike_append, allAlike_nil]
  grind

/-- A token before others in brackets, and others behind. -/
theorem allAlike_headed {k o c : Token} {ks ls ms : List Token} :
    AllAlike f g (k :: o :: (ks ++ c :: ls)) ms ↔ ∃ k' o' ks' c' ls', Token.Alike f g k k' ∧
      Token.Alike f g o o' ∧ AllAlike f g ks ks' ∧ Token.Alike f g c c' ∧ AllAlike f g ls ls' ∧
      ms = k' :: o' :: (ks' ++ c' :: ls') := by
  simp only [allAlike_cons, allAlike_divided]
  grind

/-- Tokens that are alike start at places that correspond. -/
theorem AllAlike.place (h0 : f none = g none) {ks ls : List Token} (h : AllAlike f g ks ls) :
    f (place ks) = g (place ls) := by
  cases h with
  | nil => exact h0
  | cons h _ => exact h.place

/-- A token without its place. -/
def Token.shape (k : Token) : TokenKind × Text := (k.kind, k.text)

/-- Tokens of the same shapes are alike wherever they stand. -/
theorem allAlike_of_shapes :
    ∀ {ks ls : List Token}, ls.map Token.shape = ks.map Token.shape →
      AllAlike (fun _ => none) (fun _ => none) ks ls
  | [], [], _ => .nil
  | k :: ks, l :: ls, h => by
      obtain ⟨head, tail⟩ := List.cons.inj h
      obtain ⟨kind, text⟩ := Prod.mk.inj head
      exact .cons ⟨kind.symm, text.symm, rfl⟩ (allAlike_of_shapes tail)

/-! ### What is carried -/

/-- Whatever tokens are like these carry a thing that is like this one, places aside. -/
def Carries (f g : Place → Place) {α β : Type} (P : α → List Token → Prop)
    (F : (Place → Place) → α → β) (a : α) (ks : List Token) : Prop :=
  ∀ ⦃ls : List Token⦄, AllAlike f g ks ls → ∃ b, P b ls ∧ F f a = F g b

namespace Carries
variable {α β : Type} {P : α → List Token → Prop} {Q : List α → List Token → Prop}
  {F : (Place → Place) → α → β} {a b : α} {as : List α} {c : Token} {ks ls : List Token}

/-- What a token carries by itself. -/
theorem single {k : Token} (h : ∀ l, Token.Alike f g k l → ∃ b, P b [l] ∧ F f a = F g b) :
    Carries f g P F a [k] := by
  intro ls hls
  obtain ⟨l, hl, rfl⟩ := allAlike_single.1 hls
  exact h l hl

/-- What is carried in one way is carried in every way that this is a case of. -/
theorem imp {R : α → List Token → Prop} (rule : ∀ {a ks}, P a ks → R a ks)
    (h : Carries f g P F a ks) : Carries f g R F a ks := by
  intro ls hls
  obtain ⟨b, hb, e⟩ := h hls
  exact ⟨b, rule hb, e⟩

/-! Lists, whatever their rules are called. -/

/-- Nothing carries the empty list. -/
theorem nil (rule : Q [] []) : Carries f g Q (fun f => List.map (F f)) [] [] := by
  intro ls hls
  obtain rfl := allAlike_nil.1 hls
  exact ⟨[], rule, rfl⟩

/-- A list without separators is carried piece by piece. -/
theorem append (rule : ∀ {a as ks ls}, P a ks → Q as ls → Q (a :: as) (ks ++ ls))
    (h : Carries f g P F a ks) (hs : Carries f g Q (fun f => List.map (F f)) as ls) :
    Carries f g Q (fun f => List.map (F f)) (a :: as) (ks ++ ls) := by
  intro ms hms
  obtain ⟨ks', ls', hk, hl, rfl⟩ := allAlike_append.1 hms
  obtain ⟨b, hb, e⟩ := h hk
  obtain ⟨bs, hbs, es⟩ := hs hl
  exact ⟨b :: bs, rule hb hbs, by simp only [List.map_cons, e, es]⟩

/-- The last element of a list with commas. -/
theorem last (rule : ∀ {a ks}, P a ks → Q [a] ks) (h : Carries f g P F a ks) :
    Carries f g Q (fun f => List.map (F f)) [a] ks := by
  intro ls hls
  obtain ⟨b, hb, e⟩ := h hls
  exact ⟨[b], rule hb, by simp only [List.map_cons, List.map_nil, e]⟩

/-- The last element of a list, with a comma behind it. -/
theorem closed (rule : ∀ {a c ks}, P a ks → Token.IsMark c .comma → Q [a] (ks ++ [c]))
    (h : Carries f g P F a ks) (hc : c.IsMark .comma) :
    Carries f g Q (fun f => List.map (F f)) [a] (ks ++ [c]) := by
  intro ms hms
  obtain ⟨ls, d, _, hl, hd, hnil, rfl⟩ := allAlike_divided.1 hms
  obtain rfl := allAlike_nil.1 hnil
  obtain ⟨b, hb, e⟩ := h hl
  exact ⟨[b], rule hb (hd.accepts hc), by simp only [List.map_cons, List.map_nil, e]⟩

/-- An element with a comma before the others. -/
theorem next (rule : ∀ {a b as c ks ls}, P a ks → Token.IsMark c .comma → Q (b :: as) ls →
      Q (a :: b :: as) (ks ++ c :: ls))
    (h : Carries f g P F a ks) (hc : c.IsMark .comma)
    (hs : Carries f g Q (fun f => List.map (F f)) (b :: as) ls) :
    Carries f g Q (fun f => List.map (F f)) (a :: b :: as) (ks ++ c :: ls) := by
  intro ms hms
  obtain ⟨ks', d, ls', hk, hd, hl, rfl⟩ := allAlike_divided.1 hms
  obtain ⟨a', ha, e⟩ := h hk
  obtain ⟨bs, hbs, es⟩ := hs hl
  obtain ⟨b', bs, rfl, eb, ebs⟩ := List.map_eq_cons_iff.1 (es.symm.trans (List.map_cons ..))
  exact ⟨a' :: b' :: bs, rule ha (hd.accepts hc) hbs, by simp only [List.map_cons, e, eb, ebs]⟩

end Carries

/-- Things that tokens carry are carried with commas between them, too. -/
theorem Commas.carries {α β : Type} {P : α → List Token → Prop} {F : (Place → Place) → α → β}
    (step : ∀ {a ks}, P a ks → Carries f g P F a ks) {as : List α} {ks : List Token}
    (c : Commas P as ks) : Carries f g (Commas P) (fun f => List.map (F f)) as ks := by
  induction c with
  | none => exact .nil .none
  | last h => exact .last .last (step h)
  | closed h hc => exact .closed .closed (step h) hc
  | next h hc _ ih => exact .next .next (step h) hc ih

/-! ### Expressions -/

/-- The access with its places changed. -/
def Suffix.mapPlaces (f : Place → Place) : Suffix → Suffix
  | .member n => .member n
  | .index e  => .index (e.mapPlaces f)

/-- Changing places commutes with applying an access. -/
theorem Suffix.mapPlaces_onto (f : Place → Place) (p : Place) (e : Expr) (s : Suffix) :
    (s.onto p e).mapPlaces f = (s.mapPlaces f).onto (f p) (e.mapPlaces f) := by
  cases s <;> simp [onto, mapPlaces, Expr.mapPlaces]

/-- The tokens spell a phrase of the same kind that is the phrase, at places that correspond. -/
def SpellsAlike (f g : Place → Place) : Phrase → List Token → Prop
  | .expr l e, ls => ∃ e', Spells (.expr l e') ls ∧ e.mapPlaces f = e'.mapPlaces g
  | .suffix s, ls => ∃ s', Spells (.suffix s') ls ∧ s.mapPlaces f = s'.mapPlaces g
  | .argument a, ls => ∃ a', Spells (.argument a') ls ∧ a.mapPlaces f = a'.mapPlaces g
  | .arguments as, ls => ∃ as', Spells (.arguments as') ls ∧
      as.map (Argument.mapPlaces f) = as'.map (Argument.mapPlaces g)
  | .items es, ls => ∃ es', Spells (.items es') ls ∧
      es.map (Expr.mapPlaces f) = es'.map (Expr.mapPlaces g)
  | .clauses gs, ls => ∃ gs', Spells (.clauses gs') ls ∧
      gs.map (List.map (Argument.mapPlaces f)) = gs'.map (List.map (Argument.mapPlaces g))

/-- A literal is the same at every place, its place aside. -/
theorem Expr.mapPlaces_ofKeyword {p q : Place} (h : f p = g q) {w : Keyword} {e : Expr}
    (he : Expr.ofKeyword? p w = some e) :
    ∃ e', Expr.ofKeyword? q w = some e' ∧ e.mapPlaces f = e'.mapPlaces g := by
  cases w <;> cases he <;> exact ⟨_, rfl, by simp [Expr.mapPlaces, h]⟩

/-- Tokens like these spell a phrase like this one. -/
def Phrase.Follows (f g : Place → Place) (p : Phrase) (ks : List Token) : Prop :=
  ∀ ⦃ls : List Token⦄, AllAlike f g ks ls → SpellsAlike f g p ls

namespace Phrase.Follows
variable {k n o p q c m m' w : Token} {ks ls ms : List Token} {e a b s : Expr}
  {as : List Argument} {gs : List (List Argument)} {es : List Expr} {l l' : Level}

/-! An expression of one level is one of every looser level. -/

theorem looser (rule : ∀ {e ks}, Spells (.expr l e) ks → Spells (.expr l' e) ks)
    (h : Follows f g (.expr l e) ks) : Follows f g (.expr l' e) ks :=
  Carries.imp (P := fun e => Spells (.expr l e)) (F := Expr.mapPlaces) rule h

/-! Leads and conditionals. -/

theorem bound (h0 : f none = g none) (hn : gs ≠ []) (h : Follows f g (.clauses gs) ks)
    (he : Follows f g (.expr .ternary e) ls) :
    Follows f g (.expr .expression (.led (place ks) .binding gs.flatten e)) (ks ++ ls) := by
  intro ms hms
  obtain ⟨ks', ls', hk, hl, rfl⟩ := allAlike_append.1 hms
  obtain ⟨gs', hg, eg⟩ := h hk
  obtain ⟨e', he, ee⟩ := he hl
  refine ⟨_, .bound (fun hnil => hn ?_) hg he, ?_⟩
  · simpa [hnil] using eg
  · simp only [Expr.mapPlaces, Argument.mapPlacesList_eq_map, List.map_flatten, eg, ee, hk.place h0]

theorem led {l : Lead} (hl : l ≠ .binding) (hk : k.IsWord l.keyword) (ho : o.IsMark .openParen)
    (h : Follows f g (.arguments as) ks) (hc : c.IsMark .closeParen)
    (he : Follows f g (.expr .expression e) ls) :
    Follows f g (.expr .ternary (.led k.start l as e)) (k :: o :: (ks ++ c :: ls)) := by
  intro ms hms
  obtain ⟨k', o', ks', c', ls', ak, ao, h₁, ac, h₂, rfl⟩ := allAlike_headed.1 hms
  obtain ⟨as', ha, ea⟩ := h h₁
  obtain ⟨e', he, ee⟩ := he h₂
  refine ⟨_, .led hl (ak.accepts hk) (ao.accepts ho) ha (ac.accepts hc) he, ?_⟩
  simp only [Expr.mapPlaces, Argument.mapPlacesList_eq_map, ea, ee, ak.place]

theorem ternary (h0 : f none = g none) (h : Follows f g (.expr (.tier .disjunction) e) ks)
    (hq : q.IsMark .question) (ha : Follows f g (.expr .expression a) ls) (hc : c.IsMark .colon)
    (hb : Follows f g (.expr .expression b) ms) :
    Follows f g (.expr .ternary (.ternary (place ks) e a b)) (ks ++ q :: (ls ++ c :: ms)) := by
  intro ns hns
  obtain ⟨ks', q', _, hk, aq, rest, rfl⟩ := allAlike_divided.1 hns
  obtain ⟨ls', c', ms', hl, ac, hm, rfl⟩ := allAlike_divided.1 rest
  obtain ⟨e', he, ee⟩ := h hk
  obtain ⟨a', ha, ea⟩ := ha hl
  obtain ⟨b', hb, eb⟩ := hb hm
  refine ⟨_, .ternary he (aq.accepts hq) ha (ac.accepts hc) hb, ?_⟩
  simp only [Expr.mapPlaces, ee, ea, eb, hk.place h0]

/-! Operators and accesses. -/

theorem operation (h0 : f none = g none) {t : Tier} {op : BinaryOp}
    (ha : Follows f g (.expr (.tier t) a) ks) (ho : t.terminal.Accepts o)
    (hop : BinaryOp.ofText? o.text = some op) (hb : Follows f g (.expr t.next b) ls) :
    Follows f g (.expr (.tier t) (.binary (place ks) a op b)) (ks ++ o :: ls) := by
  intro ms hms
  obtain ⟨ks', o', ls', hk, ao, hl, rfl⟩ := allAlike_divided.1 hms
  obtain ⟨a', ha, ea⟩ := ha hk
  obtain ⟨b', hb, eb⟩ := hb hl
  refine ⟨_, .operation ha (ao.accepts ho) (ao.text ▸ hop) hb, ?_⟩
  simp only [Expr.mapPlaces, ea, eb, hk.place h0]

/-- What a sign comes to does not depend on where it stands. -/
theorem signed (hk : Terminal.unary.Accepts k) (h : Follows f g (.expr .unary e) ks)
    (hs : OfTree.signed? k.start k.text e = some a) : Follows f g (.expr .unary a) (k :: ks) := by
  intro ms hms
  obtain ⟨l, ls, ak, hl, rfl⟩ := allAlike_cons.1 hms
  obtain ⟨d, hd, ed⟩ := h hl
  have sign : (OfTree.signed? l.start l.text d).map (Expr.mapPlaces g) =
      (OfTree.signed? k.start k.text e).map (Expr.mapPlaces f) := by
    rw [← OfTree.signed?_mapPlaces, ← OfTree.signed?_mapPlaces, ed, ak.place, ak.text]
  rw [hs, Option.map_some, Option.map_eq_some_iff] at sign
  obtain ⟨d', hs', he'⟩ := sign
  exact ⟨d', .signed (ak.accepts hk) hd hs', he'.symm⟩

theorem accessed (h0 : f none = g none) {s : Suffix} (h : Follows f g (.expr .access e) ks)
    (hs : Follows f g (.suffix s) ls) :
    Follows f g (.expr .access (s.onto (place ks) e)) (ks ++ ls) := by
  intro ms hms
  obtain ⟨ks', ls', hk, hl, rfl⟩ := allAlike_append.1 hms
  obtain ⟨e', he, ee⟩ := h hk
  obtain ⟨s', hs, es⟩ := hs hl
  exact ⟨_, .accessed he hs, by simp only [Suffix.mapPlaces_onto, ee, es, hk.place h0]⟩

theorem member (hp : Terminal.period.Accepts p) (hn : n.IsName) :
    Follows f g (.suffix (.member n.text)) [p, n] := by
  intro ms hms
  obtain ⟨p', _, ap, rest, rfl⟩ := allAlike_cons.1 hms
  obtain ⟨n', an, rfl⟩ := allAlike_single.1 rest
  exact ⟨_, .member (ap.accepts hp) (an.accepts hn), by simp only [Suffix.mapPlaces, an.text]⟩

theorem index (ho : o.IsMark .openBracket) (h : Follows f g (.expr .expression e) ks)
    (hc : c.IsMark .closeBracket) : Follows f g (.suffix (.index e)) (o :: (ks ++ [c])) := by
  intro ms hms
  obtain ⟨o', ks', c', ao, hk, ac, rfl⟩ := allAlike_bracketed.1 hms
  obtain ⟨e', he, ee⟩ := h hk
  exact ⟨_, .index (ao.accepts ho) he (ac.accepts hc), by simp only [Suffix.mapPlaces, ee]⟩

/-! Primaries of one token. -/

theorem literal {w : Keyword} (hk : k.IsWord w) (he : Expr.ofKeyword? k.start w = some e) :
    Follows f g (.expr .primary e) [k] :=
  Carries.single fun l ak => by
    obtain ⟨e', he', ee⟩ := Expr.mapPlaces_ofKeyword ak.place he
    exact ⟨e', .literal (ak.accepts hk) he', ee⟩

theorem text (hk : Terminal.string.Accepts k) :
    Follows f g (.expr .primary (.text k.start (OfTree.inner k.text))) [k] :=
  Carries.single fun l ak =>
    ⟨_, .text (ak.accepts hk), by simp only [Expr.mapPlaces, ak.place, ak.text]⟩

theorem number {v : Number.Double} (hk : Terminal.number.Accepts k)
    (hv : Number.Numeral.value? k.text = some v) :
    Follows f g (.expr .primary (.number k.start v)) [k] :=
  Carries.single fun l ak =>
    ⟨_, .number (ak.accepts hk) (ak.text ▸ hv), by simp only [Expr.mapPlaces, ak.place]⟩

theorem name (hk : k.IsName) : Follows f g (.expr .primary (.variable k.start k.text)) [k] :=
  Carries.single fun l ak =>
    ⟨_, .name (ak.accepts hk), by simp only [Expr.mapPlaces, ak.place, ak.text]⟩

/-! Primaries in brackets. -/

theorem parenthesized (ho : o.IsMark .openParen) (h : Follows f g (.expr .expression e) ks)
    (hc : c.IsMark .closeParen) : Follows f g (.expr .primary e) (o :: (ks ++ [c])) := by
  intro ms hms
  obtain ⟨o', ks', c', ao, hk, ac, rfl⟩ := allAlike_bracketed.1 hms
  obtain ⟨e', he, ee⟩ := h hk
  exact ⟨e', .parenthesized (ao.accepts ho) he (ac.accepts hc), ee⟩

theorem call (hn : n.IsName) (ho : o.IsMark .openParen) (h : Follows f g (.arguments as) ks)
    (hc : c.IsMark .closeParen) :
    Follows f g (.expr .primary (.call n.start n.text as)) (n :: o :: (ks ++ [c])) := by
  intro ms hms
  obtain ⟨n', _, an, rest, rfl⟩ := allAlike_cons.1 hms
  obtain ⟨o', ks', c', ao, hk, ac, rfl⟩ := allAlike_bracketed.1 rest
  obtain ⟨as', ha, ea⟩ := h hk
  refine ⟨_, .call (an.accepts hn) (ao.accepts ho) ha (ac.accepts hc), ?_⟩
  simp only [Expr.mapPlaces, Argument.mapPlacesList_eq_map, ea, an.place, an.text]

theorem comprehension (ho : o.IsMark .openBracket) (h : Follows f g (.clauses gs) ks)
    (hw : w.IsWord .forWord) (hp : p.IsMark .openParen) (ha : Follows f g (.arguments as) ls)
    (hc : c.IsMark .closeParen) (he : Follows f g (.expr .expression e) ms)
    (hq : q.IsMark .closeBracket) :
    Follows f g (.expr .primary (.comprehension o.start gs as e))
      (o :: (ks ++ w :: p :: (ls ++ c :: (ms ++ [q])))) := by
  intro ns hns
  obtain ⟨o', _, ao, inner, rfl⟩ := allAlike_cons.1 hns
  obtain ⟨ks', _, hk, loop, rfl⟩ := allAlike_append.1 inner
  obtain ⟨w', p', ls', c', _, aw, ap, hl, ac, body, rfl⟩ := allAlike_headed.1 loop
  obtain ⟨ms', _, hm, close, rfl⟩ := allAlike_append.1 body
  obtain ⟨q', aq, rfl⟩ := allAlike_single.1 close
  obtain ⟨gs', hg, eg⟩ := h hk
  obtain ⟨as', ha, ea⟩ := ha hl
  obtain ⟨e', he, ee⟩ := he hm
  refine ⟨_, .comprehension (ao.accepts ho) hg (aw.accepts hw) (ap.accepts hp) ha (ac.accepts hc)
    he (aq.accepts hq), ?_⟩
  simp only [Expr.mapPlaces, Argument.mapPlacesList_eq_map, Argument.mapPlacesGroups_eq_map, eg,
    ea, ee, ao.place]

theorem range (ho : o.IsMark .openBracket) (ha : Follows f g (.expr .expression a) ks)
    (hm : m.IsMark .colon) (hb : Follows f g (.expr .expression b) ls)
    (hc : c.IsMark .closeBracket) :
    Follows f g (.expr .primary (.range o.start a none b)) (o :: (ks ++ m :: (ls ++ [c]))) := by
  intro ns hns
  obtain ⟨o', _, ao, inner, rfl⟩ := allAlike_cons.1 hns
  obtain ⟨ks', _, hk, stop, rfl⟩ := allAlike_append.1 inner
  obtain ⟨m', ls', c', am, hl, ac, rfl⟩ := allAlike_bracketed.1 stop
  obtain ⟨a', ha, ea⟩ := ha hk
  obtain ⟨b', hb, eb⟩ := hb hl
  refine ⟨_, .range (ao.accepts ho) ha (am.accepts hm) hb (ac.accepts hc), ?_⟩
  simp only [Expr.mapPlaces, Expr.mapPlacesOption, ea, eb, ao.place]

theorem steppedRange (ho : o.IsMark .openBracket) (ha : Follows f g (.expr .expression a) ks)
    (hm : m.IsMark .colon) (hs : Follows f g (.expr .expression s) ls) (hm' : m'.IsMark .colon)
    (hb : Follows f g (.expr .expression b) ms) (hc : c.IsMark .closeBracket) :
    Follows f g (.expr .primary (.range o.start a (some s) b))
      (o :: (ks ++ m :: (ls ++ m' :: (ms ++ [c])))) := by
  intro ns hns
  obtain ⟨o', _, ao, inner, rfl⟩ := allAlike_cons.1 hns
  obtain ⟨ks', n, _, hk, am, step, rfl⟩ := allAlike_divided.1 inner
  obtain ⟨ls', _, hl, stop, rfl⟩ := allAlike_append.1 step
  obtain ⟨n', ms', c', am', hms, ac, rfl⟩ := allAlike_bracketed.1 stop
  obtain ⟨a', ha, ea⟩ := ha hk
  obtain ⟨s', hs, es⟩ := hs hl
  obtain ⟨b', hb, eb⟩ := hb hms
  refine ⟨_, .steppedRange (ao.accepts ho) ha (am.accepts hm) hs (am'.accepts hm') hb
    (ac.accepts hc), ?_⟩
  simp only [Expr.mapPlaces, Expr.mapPlacesOption, ea, es, eb, ao.place]

theorem vector (ho : o.IsMark .openBracket) (h : Follows f g (.items es) ks)
    (hc : c.IsMark .closeBracket) :
    Follows f g (.expr .primary (.vector o.start es)) (o :: (ks ++ [c])) := by
  intro ms hms
  obtain ⟨o', ks', c', ao, hk, ac, rfl⟩ := allAlike_bracketed.1 hms
  obtain ⟨es', he, ee⟩ := h hk
  refine ⟨_, .vector (ao.accepts ho) he (ac.accepts hc), ?_⟩
  simp only [Expr.mapPlaces, Expr.mapPlacesList_eq_map, ee, ao.place]

/-! Arguments, and groups of them. -/

theorem positional (h0 : f none = g none) (h : Follows f g (.expr .expression e) ks) :
    Follows f g (.argument (.mk (place ks) none e)) ks := by
  intro ls hl
  obtain ⟨e', he, ee⟩ := h hl
  exact ⟨_, .positional he, by simp only [Argument.mapPlaces, ee, hl.place h0]⟩

theorem named (hn : n.IsName) (hm : m.IsMark .assign) (h : Follows f g (.expr .expression e) ks) :
    Follows f g (.argument (.mk n.start (some n.text) e)) (n :: m :: ks) := by
  intro ms hms
  obtain ⟨n', _, an, rest, rfl⟩ := allAlike_cons.1 hms
  obtain ⟨m', ks', am, hk, rfl⟩ := allAlike_cons.1 rest
  obtain ⟨e', he, ee⟩ := h hk
  exact ⟨_, .named (an.accepts hn) (am.accepts hm) he,
    by simp only [Argument.mapPlaces, ee, an.place, an.text]⟩

theorem clause (hk : k.IsWord .letWord) (ho : o.IsMark .openParen)
    (h : Follows f g (.arguments as) ks) (hc : c.IsMark .closeParen)
    (hs : Follows f g (.clauses gs) ls) :
    Follows f g (.clauses (as :: gs)) (k :: o :: (ks ++ c :: ls)) := by
  intro ms hms
  obtain ⟨k', o', ks', c', ls', ak, ao, h₁, ac, h₂, rfl⟩ := allAlike_headed.1 hms
  obtain ⟨as', ha, ea⟩ := h h₁
  obtain ⟨gs', hg, eg⟩ := hs h₂
  exact ⟨as' :: gs', .clause (ak.accepts hk) (ao.accepts ho) ha (ac.accepts hc) hg,
    by simp only [List.map_cons, ea, eg]⟩

end Phrase.Follows

/-- What tokens spell, tokens like them spell. -/
theorem Spells.follows (h0 : f none = g none) {p : Phrase} {ks : List Token} (h : Spells p ks) :
    p.Follows f g ks := by
  induction h with
  | bound hn _ _ ihg ihe => exact .bound h0 hn ihg ihe
  | unbound _ ih => exact .looser .unbound ih
  | led hl hk ho _ hc _ iha ihe => exact .led hl hk ho iha hc ihe
  | ternary _ hq _ hc _ ihe iha ihb => exact .ternary h0 ihe hq iha hc ihb
  | unconditional _ ih => exact .looser .unconditional ih
  | operand _ ih => exact .looser .operand ih
  | operation _ ho hop _ iha ihb => exact .operation h0 iha ho hop ihb
  | signed hk _ hs ih => exact .signed hk ih hs
  | unsigned _ ih => exact .looser .unsigned ih
  | base _ ih => exact .looser .base ih
  | accessed _ _ ih ihs => exact .accessed h0 ih ihs
  | member hp hn => exact .member hp hn
  | index ho _ hc ih => exact .index ho ih hc
  | parenthesized ho _ hc ih => exact .parenthesized ho ih hc
  | literal hk he => exact .literal hk he
  | text hk => exact .text hk
  | number hk hv => exact .number hk hv
  | name hk => exact .name hk
  | call hn ho _ hc ih => exact .call hn ho ih hc
  | comprehension ho _ hf hp _ hc _ hq ihg iha ihe =>
    exact .comprehension ho ihg hf hp iha hc ihe hq
  | range ho _ hm _ hc iha ihb => exact .range ho iha hm ihb hc
  | steppedRange ho _ hm _ hm' _ hc iha ihs ihb => exact .steppedRange ho iha hm ihs hm' ihb hc
  | vector ho _ hc ih => exact .vector ho ih hc
  | positional _ ih => exact .positional h0 ih
  | named hn ha _ ih => exact .named hn ha ih
  | noArguments => exact Carries.nil (F := Argument.mapPlaces) .noArguments
  | lastArgument _ ih => exact Carries.last (F := Argument.mapPlaces) .lastArgument ih
  | closedArgument _ hc ih => exact Carries.closed (F := Argument.mapPlaces) .closedArgument ih hc
  | nextArgument _ hc _ ih ihs =>
    exact Carries.next (F := Argument.mapPlaces) .nextArgument ih hc ihs
  | noItems => exact Carries.nil (F := Expr.mapPlaces) .noItems
  | lastItem _ ih => exact Carries.last (F := Expr.mapPlaces) .lastItem ih
  | closedItem _ hc ih => exact Carries.closed (F := Expr.mapPlaces) .closedItem ih hc
  | nextItem _ hc _ ih ihs => exact Carries.next (F := Expr.mapPlaces) .nextItem ih hc ihs
  | noClauses => exact Carries.nil (F := fun f => List.map (Argument.mapPlaces f)) .noClauses
  | clause hk ho _ hc _ iha ihg => exact .clause hk ho iha hc ihg

/-- Tokens that are alike spell phrases that are. -/
theorem Spells.alike (h0 : f none = g none) {p : Phrase} {ks : List Token} (h : Spells p ks) :
    ∀ {ls : List Token}, AllAlike f g ks ls → SpellsAlike f g p ls :=
  fun hl => h.follows h0 hl

/-! ### Statements -/

/-- What tokens spell of a parameter, tokens like them spell. -/
theorem SpellsParameter.carries (h0 : f none = g none) {p : Parameter} {ks : List Token}
    (hp : SpellsParameter p ks) : Carries f g SpellsParameter Parameter.mapPlaces p ks := by
  intro ls hls
  cases hp with
  | plain hn =>
    obtain ⟨n, an, rfl⟩ := allAlike_single.1 hls
    exact ⟨_, .plain (an.accepts hn), by
      simp only [Parameter.mapPlaces, Expr.mapPlacesOption, an.place, an.text]⟩
  | withDefault hn ha he =>
    obtain ⟨n, _, an, rest, rfl⟩ := allAlike_cons.1 hls
    obtain ⟨a, ls, aa, hl, rfl⟩ := allAlike_cons.1 rest
    obtain ⟨e, he, ee⟩ := he.alike h0 hl
    exact ⟨_, .withDefault (an.accepts hn) (aa.accepts ha) he, by
      simp only [Parameter.mapPlaces, Expr.mapPlacesOption, an.place, an.text, ee]⟩

/-- The tokens say a passage of the same kind that is the passage, at places that correspond. -/
def SaysAlike (f g : Place → Place) : Passage → List Token → Prop
  | .statement s, ls => ∃ t, Says (.statement t) ls ∧ s.mapPlaces f = t.mapPlaces g
  | .statements ss, ls => ∃ ts, Says (.statements ts) ls ∧
      ss.map (Statement.mapPlaces f) = ts.map (Statement.mapPlaces g)
  | .script ss, ls => ∃ ts, Says (.script ts) ls ∧
      ss.map (Statement.mapPlaces f) = ts.map (Statement.mapPlaces g)

/-- Tokens like these say a passage like this one. -/
def Passage.Follows (f g : Place → Place) (p : Passage) (ks : List Token) : Prop :=
  ∀ ⦃ls : List Token⦄, AllAlike f g ks ls → SaysAlike f g p ls

namespace Passage.Follows
variable {k n o c m w z i l : Token} {ks ls ms : List Token} {e : Expr} {as : List Argument}
  {ps : List Parameter} {s a b : Statement} {ss : List Statement}

theorem empty (hk : k.IsMark .semicolon) : Follows f g (.statement (.empty k.start)) [k] :=
  Carries.single fun l ak =>
    ⟨_, .empty (ak.accepts hk), by simp only [Statement.mapPlaces, ak.place]⟩

theorem block (ho : o.IsMark .openBrace) (h : Follows f g (.statements ss) ks)
    (hc : c.IsMark .closeBrace) :
    Follows f g (.statement (.block o.start ss)) (o :: (ks ++ [c])) := by
  intro ms hms
  obtain ⟨o', ks', c', ao, hk, ac, rfl⟩ := allAlike_bracketed.1 hms
  obtain ⟨ts, hs, es⟩ := h hk
  refine ⟨_, .block (ao.accepts ho) hs (ac.accepts hc), ?_⟩
  simp only [Statement.mapPlaces, Statement.mapPlacesList_eq_map, es, ao.place]

/-! Definitions and assignments. -/

theorem moduleDefinition (h0 : f none = g none) (hm : m.IsWord .moduleWord) (hn : n.IsName)
    (ho : o.IsMark .openParen) (hp : Commas SpellsParameter ps ks) (hc : c.IsMark .closeParen)
    (h : Follows f g (.statement s) ls) :
    Follows f g (.statement (.moduleDefinition m.start n.text ps s))
      (m :: n :: o :: (ks ++ c :: ls)) := by
  intro ms hms
  obtain ⟨m', _, am, rest, rfl⟩ := allAlike_cons.1 hms
  obtain ⟨n', o', ks', c', ls', an, ao, hk, ac, hl, rfl⟩ := allAlike_headed.1 rest
  obtain ⟨ps', hp, ep⟩ := hp.carries (fun hp => hp.carries h0) hk
  obtain ⟨t, ht, et⟩ := h hl
  refine ⟨_, .moduleDefinition (am.accepts hm) (an.accepts hn) (ao.accepts ho) hp
    (ac.accepts hc) ht, ?_⟩
  simp only [Statement.mapPlaces, ep, et, am.place, an.text]

theorem functionDefinition (h0 : f none = g none) (hw : w.IsWord .functionWord) (hn : n.IsName)
    (ho : o.IsMark .openParen) (hp : Commas SpellsParameter ps ks) (hc : c.IsMark .closeParen)
    (hm : m.IsMark .assign) (h : Spells (.expr .expression e) ls) (hz : z.IsMark .semicolon) :
    Follows f g (.statement (.functionDefinition w.start n.text ps e))
      (w :: n :: o :: (ks ++ c :: m :: (ls ++ [z]))) := by
  intro ms hms
  obtain ⟨w', _, aw, rest, rfl⟩ := allAlike_cons.1 hms
  obtain ⟨n', o', ks', c', _, an, ao, hk, ac, body, rfl⟩ := allAlike_headed.1 rest
  obtain ⟨m', ls', z', am, hl, az, rfl⟩ := allAlike_bracketed.1 body
  obtain ⟨ps', hp, ep⟩ := hp.carries (fun hp => hp.carries h0) hk
  obtain ⟨e', he, ee⟩ := h.alike h0 hl
  refine ⟨_, .functionDefinition (aw.accepts hw) (an.accepts hn) (ao.accepts ho) hp
    (ac.accepts hc) (am.accepts hm) he (az.accepts hz), ?_⟩
  simp only [Statement.mapPlaces, ep, ee, aw.place, an.text]

theorem assignment (h0 : f none = g none) (hn : n.IsName) (hm : m.IsMark .assign)
    (h : Spells (.expr .expression e) ks) (hz : z.IsMark .semicolon) :
    Follows f g (.statement (.assignment n.start n.text e)) (n :: m :: (ks ++ [z])) := by
  intro ms hms
  obtain ⟨n', _, an, rest, rfl⟩ := allAlike_cons.1 hms
  obtain ⟨m', ks', z', am, hk, az, rfl⟩ := allAlike_bracketed.1 rest
  obtain ⟨e', he, ee⟩ := h.alike h0 hk
  refine ⟨_, .assignment (an.accepts hn) (am.accepts hm) he (az.accepts hz), ?_⟩
  simp only [Statement.mapPlaces, ee, an.place, an.text]

/-! Statements in which others stand. -/

theorem conditional (h0 : f none = g none) (hi : i.IsWord .ifWord) (ho : o.IsMark .openParen)
    (h : Spells (.expr .expression e) ks) (hc : c.IsMark .closeParen)
    (ha : Follows f g (.statement a) ls) :
    Follows f g (.statement (.conditional i.start e a none)) (i :: o :: (ks ++ c :: ls)) := by
  intro ms hms
  obtain ⟨i', o', ks', c', ls', ai, ao, hk, ac, hl, rfl⟩ := allAlike_headed.1 hms
  obtain ⟨e', he, ee⟩ := h.alike h0 hk
  obtain ⟨a', ha, ea⟩ := ha hl
  refine ⟨_, .conditional (ai.accepts hi) (ao.accepts ho) he (ac.accepts hc) ha, ?_⟩
  simp only [Statement.mapPlaces, Statement.mapPlacesOption, ee, ea, ai.place]

theorem alternative (h0 : f none = g none) (hi : i.IsWord .ifWord) (ho : o.IsMark .openParen)
    (h : Spells (.expr .expression e) ks) (hc : c.IsMark .closeParen)
    (ha : Follows f g (.statement a) ls) (hl : l.IsWord .elseWord)
    (hb : Follows f g (.statement b) ms) :
    Follows f g (.statement (.conditional i.start e a (some b)))
      (i :: o :: (ks ++ c :: (ls ++ l :: ms))) := by
  intro ns hns
  obtain ⟨i', o', ks', c', _, ai, ao, hk, ac, branches, rfl⟩ := allAlike_headed.1 hns
  obtain ⟨ls', l', ms', hls, al, hms, rfl⟩ := allAlike_divided.1 branches
  obtain ⟨e', he, ee⟩ := h.alike h0 hk
  obtain ⟨a', ha, ea⟩ := ha hls
  obtain ⟨b', hb, eb⟩ := hb hms
  refine ⟨_, .alternative (ai.accepts hi) (ao.accepts ho) he (ac.accepts hc) ha (al.accepts hl)
    hb, ?_⟩
  simp only [Statement.mapPlaces, Statement.mapPlacesOption, ee, ea, eb, ai.place]

theorem modified {d : Modifier} (hk : Terminal.modifier.Accepts k)
    (hd : Modifier.ofText? k.text = some d) (h : Follows f g (.statement s) ks) :
    Follows f g (.statement (OfTree.modify k.start d s)) (k :: ks) := by
  intro ms hms
  obtain ⟨k', ks', ak, hk', rfl⟩ := allAlike_cons.1 hms
  obtain ⟨t, ht, et⟩ := h hk'
  refine ⟨_, .modified (ak.accepts hk) (ak.text ▸ hd) ht, ?_⟩
  simp only [OfTree.mapPlaces_modify, et, ak.place]

theorem loop (h0 : f none = g none) (hw : w.IsWord .forWord) (ho : o.IsMark .openParen)
    (ha : Spells (.arguments as) ks) (hc : c.IsMark .closeParen)
    (h : Follows f g (.statement s) ls) :
    Follows f g (.statement (.loop w.start as s none)) (w :: o :: (ks ++ c :: ls)) := by
  intro ms hms
  obtain ⟨w', o', ks', c', ls', aw, ao, hk, ac, hl, rfl⟩ := allAlike_headed.1 hms
  obtain ⟨as', ha, ea⟩ := ha.alike h0 hk
  obtain ⟨t, ht, et⟩ := h hl
  refine ⟨_, .loop (aw.accepts hw) (ao.accepts ho) ha (ac.accepts hc) ht, ?_⟩
  simp only [Statement.mapPlaces, Argument.mapPlacesList_eq_map, ea, et, aw.place]

theorem call (h0 : f none = g none) (hn : n.IsCallee) (ho : o.IsMark .openParen)
    (ha : Spells (.arguments as) ks) (hc : c.IsMark .closeParen)
    (h : Follows f g (.statement s) ls) :
    Follows f g (.statement (.call n.start n.text as s none)) (n :: o :: (ks ++ c :: ls)) := by
  intro ms hms
  obtain ⟨n', o', ks', c', ls', an, ao, hk, ac, hl, rfl⟩ := allAlike_headed.1 hms
  obtain ⟨as', ha, ea⟩ := ha.alike h0 hk
  obtain ⟨t, ht, et⟩ := h hl
  refine ⟨_, .call (an.isCallee hn) (ao.accepts ho) ha (ac.accepts hc) ht, ?_⟩
  simp only [Statement.mapPlaces, Argument.mapPlacesList_eq_map, ea, et, an.place, an.text]

/-! References in scripts. -/

/-- A reference, of either kind, before the rest of a script. -/
theorem file {r : Reference} (hs : Follows f g (.script ss) ks)
    (rule : ∀ {l : Token} {ts ls}, Token.Alike f g k l → Says (.script ts) ls →
      Says (.script (.file l.start r (OfTree.path l.text) :: ts)) (l :: ls)) :
    Follows f g (.script (.file k.start r (OfTree.path k.text) :: ss)) (k :: ks) := by
  intro ms hms
  obtain ⟨k', ks', ak, hk', rfl⟩ := allAlike_cons.1 hms
  obtain ⟨ts, hts, ets⟩ := hs hk'
  exact ⟨_ :: ts, rule ak hts, by
    simp only [List.map_cons, Statement.mapPlaces, ets, ak.place, ak.text]⟩

end Passage.Follows

/-- What tokens say, tokens like them say. -/
theorem Says.follows (h0 : f none = g none) {p : Passage} {ks : List Token} (h : Says p ks) :
    p.Follows f g ks := by
  induction h with
  | empty hk => exact .empty hk
  | block ho _ hc ih => exact .block ho ih hc
  | moduleDefinition hm hn ho hp hc _ ih => exact .moduleDefinition h0 hm hn ho hp hc ih
  | functionDefinition hf hn ho hp hc ha he hz =>
    exact .functionDefinition h0 hf hn ho hp hc ha he hz
  | assignment hn ha he hz => exact .assignment h0 hn ha he hz
  | conditional hi ho he hc _ ih => exact .conditional h0 hi ho he hc ih
  | alternative hi ho he hc _ hl _ iha ihb => exact .alternative h0 hi ho he hc iha hl ihb
  | modified hk hm _ ih => exact .modified hk hm ih
  | loop hf ho ha hc _ ih => exact .loop h0 hf ho ha hc ih
  | call hn ho ha hc _ ih => exact .call h0 hn ho ha hc ih
  | noStatements => exact Carries.nil (F := Statement.mapPlaces) .noStatements
  | nextStatement _ _ ih ihs =>
    exact Carries.append (F := Statement.mapPlaces) .nextStatement ih ihs
  | emptyScript => exact Carries.nil (F := Statement.mapPlaces) .emptyScript
  | ordinary _ _ ih ihs => exact Carries.append (F := Statement.mapPlaces) .ordinary ih ihs
  | useFile hk _ ih => exact .file ih fun ak => .useFile (ak.accepts hk)
  | includeFile hk _ ih => exact .file ih fun ak => .includeFile (ak.accepts hk)

/-- Tokens that are alike say passages that are. -/
theorem Says.alike (h0 : f none = g none) {p : Passage} {ks : List Token} (h : Says p ks) :
    ∀ {ls : List Token}, AllAlike f g ks ls → SaysAlike f g p ls :=
  fun hl => h.follows h0 hl

/-! ### Where an `else` belongs -/

/-- Where a statement stands does not matter to whether it ends open. -/
@[simp] theorem Statement.endsOpen_mapPlaces (f : Place → Place) :
    ∀ s : Statement, (s.mapPlaces f).EndsOpen ↔ s.EndsOpen
  | .empty _ | .block _ _ | .functionDefinition _ _ _ _ | .assignment _ _ _ | .file _ _ _ => by
    simp [mapPlaces]
  | .moduleDefinition _ _ _ s | .call _ _ _ s _ | .loop _ _ s _ | .modified _ _ s => by
    simp [mapPlaces, endsOpen_mapPlaces f s]
  | .conditional _ _ _ none => by simp [mapPlaces, mapPlacesOption]
  | .conditional _ _ _ (some b) => by simp [mapPlaces, mapPlacesOption, endsOpen_mapPlaces f b]

mutual

/-- Places do not matter to where an `else` belongs. -/
@[simp] theorem Node.sealed_mapPlaces (f : Place → Place) :
    ∀ s : Statement, (Node.statement (s.mapPlaces f)).Sealed ↔ (Node.statement s).Sealed
  | .empty _ | .functionDefinition _ _ _ _ | .assignment _ _ _ | .file _ _ _ => by
    simp [Statement.mapPlaces]
  | .block _ ss => by
    simp only [Statement.mapPlaces, Node.sealed_block, Node.sealed_mapPlacesList f ss]
  | .moduleDefinition _ _ _ s | .call _ _ _ s _ | .loop _ _ s _ | .modified _ _ s => by
    simp [Statement.mapPlaces, Node.sealed_mapPlaces f s]
  | .conditional _ _ a none => by
    simp [Statement.mapPlaces, Statement.mapPlacesOption, Node.sealed_mapPlaces f a]
  | .conditional _ _ a (some b) => by
    simp [Statement.mapPlaces, Statement.mapPlacesOption, Node.sealed_mapPlaces f a,
      Node.sealed_mapPlaces f b]

/-- Places do not matter to where an `else` belongs in a list of statements. -/
theorem Node.sealed_mapPlacesList (f : Place → Place) :
    ∀ ss : List Statement, (∀ s ∈ Statement.mapPlacesList f ss, (Node.statement s).Sealed) ↔
      ∀ s ∈ ss, (Node.statement s).Sealed
  | [] => by simp [Statement.mapPlacesList]
  | s :: ss => by
    simp [Statement.mapPlacesList, Node.sealed_mapPlaces f s, Node.sealed_mapPlacesList f ss]

end

/-- Scripts that are the same but for their places are sealed together. -/
theorem Node.forall_sealed_of_mapPlaces {ss ts : Script}
    (h : ss.map (Statement.mapPlaces f) = ts.map (Statement.mapPlaces g))
    (hs : ∀ s ∈ ss, (Node.statement s).Sealed) : ∀ t ∈ ts, (Node.statement t).Sealed := by
  rw [← Statement.mapPlacesList_eq_map, ← Statement.mapPlacesList_eq_map] at h
  rw [← Node.sealed_mapPlacesList g, ← h, Node.sealed_mapPlacesList]
  exact hs

end SolidScript

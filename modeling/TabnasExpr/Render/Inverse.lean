import TabnasExpr.Accepted
import TabnasExpr.Render.RoundTrip
import TabnasExpr.Rules.Append

/-!
# The render and the rules

The render decides by class where a term is written as a list, and the rules of an expression by power
where an operator is put.  On the operations of the default table the two decide alike: a text without
lists is read as a tree by the rules exactly when it is the text the render writes of that tree
(`builds_iff_exprRender`).
-/

namespace TabnasExpr.Render

open OpTree OpTree.Tree Rules

universe u

variable {ν : Type u}

/-! ## Operations -/

/-- A scalar that is written as one token: a number is finite and has no sign. -/
def Scalar.Literal (v : Scalar ν) : Prop := ∀ n, v = .num n → ∃ m, n = .finite false m

/-- A tree of values shows a tree of operators: an operation is a list led by its source text. -/
inductive Json.Shows : Json ν → Tree Op (Val (Scalar ν)) → Prop where
  | scalar {v : Scalar ν} (h : v.Literal) : Shows (.scalar v) (leaf (.atom v))
  | group {x X} (h : Shows x X) : Shows (.list [.scalar (.str Source.paren.text), x]) (grp plain X)
  | unary {s : Source} {p x X} (hp : s.prefixOp = some p) (h : Shows x X) :
    Shows (.list [.scalar (.str s.text), x]) (pre p X)
  | binary {s : Source} {o x y X Y} (ho : s.infixOp = some o) (hx : Shows x X) (hy : Shows y Y) :
    Shows (.list [.scalar (.str s.text), x, y]) (inf o X Y)

/-- A token of the rules is read from a lexeme. -/
inductive Lexed : Sym Op (Scalar ν) → Lexeme ν → Prop where
  | leaf {v l} (hv : v.Literal) (h : exprScalarText v = [l]) : Lexed (.leaf v) l
  | pre {s : Source} {p} (h : s.prefixOp = some p) : Lexed (.pre p) (.op s)
  | inf {s : Source} {o} (h : s.infixOp = some o) : Lexed (.inf o) (.op s)
  | opn : Lexed (.opn plain) (.op .paren)
  | cls : Lexed (.cls plain) .closeParen

theorem Scalar.Literal.exists_lexeme {v : Scalar ν} (h : v.Literal) : ∃ l, exprScalarText v = [l] := by
  cases v with
  | num n =>
    obtain ⟨m, rfl⟩ := h n rfl
    exact ⟨_, rfl⟩
  | null | bool b | str s => exact ⟨_, rfl⟩

theorem Source.text_injective : Function.Injective Source.text := by
  intro s s' h
  exact Option.some.inj ((ofText_eq_some_iff.2 rfl).symm.trans (ofText_eq_some_iff.2 h))

section Tokens

variable {tok : Sym Op (Scalar ν)} {l : Lexeme ν} {ts : List (Sym Op (Scalar ν))} {text : Text ν}

/-- A token is read from one lexeme. -/
theorem rightUnique_lexed : Relator.RightUnique (Lexed (ν := ν)) := by
  intro tok l l' h h'
  cases h with
  | leaf _ h =>
    cases h' with
    | leaf _ h' => simpa using h.symm.trans h'
  | pre h =>
    cases h' with
    | pre h' =>
      obtain ⟨hs, -⟩ := Source.prefixOp_eq_some h
      obtain ⟨hs', -⟩ := Source.prefixOp_eq_some h'
      rw [Source.text_injective (hs.symm.trans hs')]
  | inf h =>
    cases h' with
    | inf h' =>
      obtain ⟨hs, -⟩ := Source.infixOp_eq_some h
      obtain ⟨hs', -⟩ := Source.infixOp_eq_some h'
      rw [Source.text_injective (hs.symm.trans hs')]
  | opn =>
    cases h'
    rfl
  | cls =>
    cases h'
    rfl

theorem Lexed.ne_openList (h : Lexed tok l) : l ≠ .openList := by
  rintro rfl
  cases h with
  | @leaf v _ hv h =>
    cases v with
    | num n =>
      obtain ⟨m, rfl⟩ := hv n rfl
      cases h
    | null | bool b | str s => cases h

/-- The default operators do not bind into a closed paren. -/
theorem Lexed.inTable (h : Lexed tok l) : InTable tok := by
  cases h with
  | leaf => trivial
  | pre h => exact (Source.prefixOp_eq_some h).2
  | @inf s o h =>
    refine ⟨(Source.infixOp_eq_some h).2, ?_⟩
    rw [(powers_of_infixOp h).1]
    cases exprLevel s <;> decide
  | opn | cls => exact ⟨rfl, rfl⟩

/-- What holds of every token that is read from a lexeme holds of those of a text. -/
theorem forall_of_lexed {P : Sym Op (Scalar ν) → Prop} (hP : ∀ tok l, Lexed tok l → P tok)
    (h : List.Forall₂ Lexed ts text) : ∀ tok ∈ ts, P tok :=
  ((List.forall₂_and_left ts text).1 (h.imp fun tok l hl => ⟨hP tok l hl, hl⟩)).1

theorem plain_of_lexed (h : List.Forall₂ Lexed ts text) {p : Op} (hp : .opn p ∈ ts ∨ .cls p ∈ ts) :
    p = plain := by
  have hall := forall_of_lexed (P := fun tok => ∀ q, tok = .opn q ∨ tok = .cls q → q = plain)
    (fun tok l hl => by cases hl <;> simp) h
  rcases hp with hp | hp
  · exact hall _ hp p (.inl rfl)
  · exact hall _ hp p (.inr rfl)

theorem source_of_lexed (h : List.Forall₂ Lexed ts text) (hne : NoEmpty ts) : Rules.Source ts where
  inTable := forall_of_lexed (fun _ _ => Lexed.inTable) h
  oneParen _ _ hp hq := (plain_of_lexed h (.inr hq)).trans (plain_of_lexed h (.inl hp)).symm
  noEmpty := hne

theorem openList_not_mem (h : List.Forall₂ Lexed ts text) : .openList ∉ text := by
  induction h with
  | nil => exact List.not_mem_nil
  | cons hl _ ih =>
    rw [List.mem_cons, not_or]
    exact ⟨hl.ne_openList.symm, ih⟩

end Tokens

/-! ## Terms -/

theorem takes_iff {β : Type u} {o : Op} {X : Tree Op β} : Takes o X ↔ FitsLeft o X := by
  cases X <;> exact Iff.rfl

section Terms

variable {level : Class}

/-- A left term is written as it is where the operator takes it. -/
theorem exprLeft_cases (hl : level ≠ .atom) (i : Item ν) :
    level.power ≤ i.cls.power + 100000 ∧ exprLeft i level = i.text ∨
      ¬ level.power ≤ i.cls.power + 100000 ∧ i.cls ≠ .atom ∧ exprLeft i level = i.list := by
  unfold exprLeft
  cases hc : i.cls <;> cases level <;> simp [Class.power] at hl ⊢

/-- A right term is written as it is where it binds more tightly than the operator. -/
theorem exprRight_cases (hl : level ≠ .atom) (i : Item ν) :
    level.power + 100000 < i.cls.power ∧ exprRight i level = i.text ∨
      ¬ level.power + 100000 < i.cls.power ∧ i.cls ≠ .atom ∧ exprRight i level = i.list := by
  unfold exprRight
  cases hc : i.cls <;> cases level <;> simp [Class.power] at hl ⊢

/-- The term of a prefix operator is written as it is where it is no infix operation. -/
theorem exprTerm_cases (i : Item ν) :
    i.cls = .atom ∧ exprTerm i = i.text ∨ i.cls ≠ .atom ∧ exprTerm i = i.list := by
  unfold exprTerm
  cases i.cls <;> simp

end Terms

section Written

variable [Zero ν] [DecidableEq ν] {t x y : Json ν} {T X Y : Tree Op (Val (Scalar ν))} {s : Source}
  {p o : Op}

theorem item_group (x : Json ν) : (Json.list [.scalar (.str Source.paren.text), x]).item =
    ⟨.op .paren :: (x.item.text ++ [.closeParen]), .atom,
      exprList [exprScalarItem (.str Source.paren.text), x.item], none⟩ := rfl

theorem item_unary (hp : s.prefixOp = some p) (x : Json ν) :
    (Json.list [.scalar (.str s.text), x]).item =
      ⟨.op s :: exprTerm x.item, .atom, exprList [exprScalarItem (.str s.text), x.item], none⟩ := by
  cases s <;> cases hp <;> rfl

theorem item_binary (ho : s.infixOp = some o) (x y : Json ν) :
    (Json.list [.scalar (.str s.text), x, y]).item =
      ⟨exprLeft x.item (exprLevel s) ++ .op s :: exprRight y.item (exprLevel s), exprLevel s,
        exprList [exprScalarItem (.str s.text), x.item, y.item], none⟩ := by
  cases s <;> cases ho <;> rfl

/-- What is not written in one way only is written as a list otherwise. -/
theorem Json.Shows.openList_mem (h : t.Shows T) (hc : t.item.cls ≠ .atom) : .openList ∈ t.item.list := by
  cases h with
  | scalar | group => exact absurd rfl hc
  | @unary s p x X hp h =>
    rw [item_unary hp] at hc
    exact absurd rfl hc
  | binary ho hx hy =>
    rw [item_binary ho]
    exact List.mem_cons_self

/-- By its class a left term is taken where it is by its powers. -/
theorem Json.Shows.fitsLeft_iff (h : x.Shows X) (ho : s.infixOp = some o) :
    FitsLeft o X ↔ (exprLevel s).power ≤ x.item.cls.power + 100000 := by
  have hleft := (powers_of_infixOp ho).1
  have hatom : (exprLevel s).power ≤ Class.power .atom + 100000 := by
    cases exprLevel s <;> decide
  cases h with
  | scalar | group => exact iff_of_true trivial hatom
  | @unary _ p _ _ hp h =>
    rw [item_unary hp]
    refine iff_of_true ?_ hatom
    show o.left ≤ p.right
    rw [right_of_prefixOp hp, hleft]
    cases exprLevel s <;> decide
  | @binary _ o' _ _ _ _ ho' hx hy =>
    rw [item_binary ho']
    show o.left ≤ o'.right ↔ _
    rw [hleft, (powers_of_infixOp ho').2]

/-- By its class a right term binds more tightly where it does by its powers. -/
theorem Json.Shows.fitsRight_iff (h : y.Shows Y) (ho : s.infixOp = some o) :
    FitsRight o Y ↔ (exprLevel s).power + 100000 < y.item.cls.power := by
  have hright := (powers_of_infixOp ho).2
  have hatom : (exprLevel s).power + 100000 < Class.power .atom := by
    have hne := exprLevel_ne_atom s
    cases hl : exprLevel s with
    | atom => exact absurd hl hne
    | infix2 | infix3 => decide
  cases h with
  | scalar | group => exact iff_of_true trivial hatom
  | unary hp h =>
    rw [item_unary hp]
    exact iff_of_true trivial hatom
  | @binary _ o' _ _ _ _ ho' hx hy =>
    rw [item_binary ho']
    show o.right < o'.left ↔ _
    rw [hright, (powers_of_infixOp ho').1]

/-- A default prefix operator goes around no infix operation. -/
theorem Json.Shows.fitsTerm_iff (h : x.Shows X) (hp : s.prefixOp = some p) :
    FitsRight p X ↔ x.item.cls = .atom := by
  cases h with
  | scalar | group => exact iff_of_true trivial rfl
  | unary hp' h =>
    rw [item_unary hp']
    exact iff_of_true trivial rfl
  | @binary s' o' _ _ _ _ ho' hx hy =>
    rw [item_binary ho']
    refine iff_of_false ?_ (exprLevel_ne_atom s')
    show ¬ p.right < o'.left
    rw [right_of_prefixOp hp, (powers_of_infixOp ho').1]
    cases exprLevel s' <;> decide

/-- No term is written as a list just where every operator fits its operands. -/
theorem Json.Shows.ordered_iff (h : t.Shows T) : Ordered T ↔ .openList ∉ t.item.text := by
  induction h with
  | scalar hv =>
    obtain ⟨l, hl⟩ := hv.exists_lexeme
    refine iff_of_true trivial ?_
    show .openList ∉ exprScalarText _
    rw [hl, List.mem_singleton]
    exact (Lexed.leaf hv hl).ne_openList.symm
  | @group x X h ih =>
    rw [item_group]
    show Ordered X ↔ _
    simpa using ih
  | @unary s p x X hp h ih =>
    rw [item_unary hp]
    show FitsRight p X ∧ Ordered X ↔ _
    rw [h.fitsTerm_iff hp, ih]
    rcases exprTerm_cases x.item with ⟨hc, hterm⟩ | ⟨hc, hterm⟩
    · simp [hterm, hc]
    · simp [hterm, hc, h.openList_mem hc]
  | @binary s o x y X Y ho hx hy ihx ihy =>
    have hl := exprLevel_ne_atom s
    rw [item_binary ho]
    show FitsLeft o X ∧ FitsRight o Y ∧ Ordered X ∧ Ordered Y ↔ _
    rw [hx.fitsLeft_iff ho, hy.fitsRight_iff ho, ihx, ihy]
    rcases exprLeft_cases hl x.item with ⟨hfit, hleft⟩ | ⟨hfit, hc, hleft⟩
    · rcases exprRight_cases hl y.item with ⟨hfit', hright⟩ | ⟨hfit', hc', hright⟩
      · simp [hleft, hright, hfit, hfit']
      · simp [hright, hfit', hy.openList_mem hc']
    · simp [hleft, hfit, hx.openList_mem hc]

/-! ## The expression of a tree -/

/-- An expression spells an item: it has the tokens of its text, and its infix operators bind as tightly
as its class. -/
structure Spells (e : Expr (Scalar ν)) (i : Item ν) : Prop where
  text : List.Forall₂ Lexed e.text i.text
  lead : i.cls = .atom → ∃ ps x, e = .lead ps x
  atLeast : e.AtLeast i.cls.power

/-- A tree whose operators all fit their operands is that of an expression that spells it. -/
theorem Json.Shows.exists_expr (h : t.Shows T) (hT : Ordered T) :
    ∃ e : Expr (Scalar ν), e.tree false = T ∧ Spells e t.item := by
  induction h with
  | @scalar v hv =>
    obtain ⟨l, hl⟩ := hv.exists_lexeme
    refine ⟨.lead [] (.atom v), rfl, ?_, fun _ => ⟨[], _, rfl⟩, trivial⟩
    show List.Forall₂ Lexed [.leaf v] (exprScalarText v)
    rw [hl]
    exact .cons (.leaf hv hl) .nil
  | @group x X h ih =>
    obtain ⟨e, he, hs⟩ := ih hT
    refine ⟨.lead [] (.paren plain e), ?_, ?_, fun _ => ⟨[], _, rfl⟩, trivial⟩
    · rw [tree_lead, tree_paren, he]
      rfl
    · rw [item_group]
      exact .cons .opn (List.rel_append hs.text (.cons .cls .nil))
  | @unary s p x X hp h ih =>
    obtain ⟨e, he, hs⟩ := ih hT.2
    have hatom := (h.fitsTerm_iff hp).1 hT.1
    obtain ⟨ps, a, rfl⟩ := hs.lead hatom
    refine ⟨.lead (p :: ps) a, ?_, ?_, fun _ => ⟨_, _, rfl⟩, trivial⟩
    · rw [tree_lead] at he ⊢
      rw [← he]
      rfl
    · rw [item_unary hp]
      rcases exprTerm_cases x.item with ⟨-, hterm⟩ | ⟨hc, -⟩
      · exact .cons (.pre hp) (hterm ▸ hs.text)
      · exact absurd hatom hc
  | @binary s o x y X Y ho hx hy ihx ihy =>
    obtain ⟨hleft, hright, hX, hY⟩ := hT
    obtain ⟨e, he, hs⟩ := ihx hX
    obtain ⟨f, hf, hs'⟩ := ihy hY
    have hl := exprLevel_ne_atom s
    obtain ⟨hol, hor⟩ := powers_of_infixOp ho
    have hfit := (hx.fitsLeft_iff ho).1 hleft
    have hfit' := (hy.fitsRight_iff ho).1 hright
    refine ⟨e.append o f, ?_, ?_, ?_, ?_⟩
    · rw [Expr.tree_append (takes_iff.2 (he ▸ hleft)) (hor ▸ hfit') hs'.atLeast, he, hf]
    · rw [item_binary ho, Expr.text_append]
      rcases exprLeft_cases hl x.item with ⟨-, hx'⟩ | ⟨hn, -⟩
      · rcases exprRight_cases hl y.item with ⟨-, hy'⟩ | ⟨hn, -⟩
        · rw [hx', hy']
          exact List.rel_append hs.text (.cons (.inf ho) hs'.text)
        · exact absurd hfit' hn
      · exact absurd hfit hn
    · intro hc
      rw [item_binary ho] at hc
      exact absurd hc hl
    · rw [item_binary ho]
      have hle : (exprLevel s).power ≤ x.item.cls.power := by
        cases hls : exprLevel s <;> cases hc : x.item.cls <;> rw [hls, hc] at hfit <;>
          simp [Class.power] at hfit ⊢
      exact Expr.AtLeast.append hol.ge (hs.atLeast.mono hle) (hs'.atLeast.mono (by omega))

/-! ## Both ways -/

theorem Json.Shows.not_refused (h : t.Shows T) : ¬ t.Refused := by
  induction h with
  | scalar hv => exact id
  | group h ih | unary hp h ih => simp [Json.Refused, Json.RefusedAll, Json.Foreign, ih]
  | binary ho hx hy ihx ihy => simp [Json.Refused, Json.RefusedAll, Json.Foreign, ihx, ihy]

/-- Without lists a text is read as a tree by the rules exactly when the render writes it of that tree. -/
theorem builds_iff_exprRender (hT : t.Shows T) {text : Text ν} :
    (∃ ts, List.Forall₂ Lexed ts text ∧ NoEmpty ts ∧ Builds ts T) ↔
      exprRender t.events = .ok (text ++ [.newline]) ∧ .openList ∉ text := by
  rw [exprRender_events hT.not_refused]
  constructor
  · rintro ⟨ts, hts, hne, hbuilds⟩
    have hsource := source_of_lexed hts hne
    obtain ⟨e, rfl, he⟩ := hbuilds.exists_expr hsource
    obtain ⟨hk, -⟩ := Expr.kinded_of_text hsource.inTable
    obtain ⟨e', he', hs⟩ := hT.exists_expr (he ▸ e.ordered_tree hk)
    obtain ⟨hk', -⟩ := Expr.kinded_of_text (forall_of_lexed (fun _ _ => Lexed.inTable) hs.text)
    rw [Expr.text_eq_of_tree hk hk' (he.trans he'.symm)] at hts
    obtain rfl := rightUnique_lexed.forall₂ hts hs.text
    exact ⟨rfl, openList_not_mem hts⟩
  · rintro ⟨hrender, hmem⟩
    have htext := List.append_cancel_right (Except.ok.inj hrender)
    subst htext
    obtain ⟨e, rfl, hs⟩ := hT.exists_expr (hT.ordered_iff.2 hmem)
    obtain ⟨hk, hout⟩ := Expr.kinded_of_text (forall_of_lexed (fun _ _ => Lexed.inTable) hs.text)
    exact ⟨e.text, hs.text, e.noEmpty_text, Expr.builds_tree hk hout⟩

end Written

/-- The rules read `1+-2*(3)` as a tree the render writes so. -/
theorem builds_iff_exprRender_sum :
    ∃ ts : List (Sym Op (Scalar ℕ)), List.Forall₂ Lexed ts [.num 1, .op .plus, .op .minus, .num 2,
        .op .star, .op .paren, .num 3, .closeParen] ∧ NoEmpty ts ∧
      Builds ts (inf addition (leaf (.atom (.num (.finite false 1))))
        (inf multiplication (pre negative (leaf (.atom (.num (.finite false 2)))))
          (grp plain (leaf (.atom (.num (.finite false 3))))))) := by
  have hnum (n : ℕ) : Scalar.Literal (.num (.finite false n)) := fun m h => ⟨n, (Scalar.num.inj h).symm⟩
  have hshows := Json.Shows.binary (s := .plus) rfl (.scalar (hnum 1))
    (.binary (s := .star) rfl (.unary (s := .minus) rfl (.scalar (hnum 2))) (.group (.scalar (hnum 3))))
  exact (builds_iff_exprRender hshows).2 ⟨rfl, by simp⟩

end TabnasExpr.Render

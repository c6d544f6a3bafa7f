import TabnasExpr.Defaults
import TabnasExpr.Port

/-!
# `prattify` and precedence climbing

Calling `prattify` on the root of an infix expression once an operator, and pushing each operand onto
the node it returns, builds the tree of the reference parser when the powers of the table form tiers.
An operand is any value that is no expression, or a closed paren node, which no operator goes into.
-/

namespace TabnasExpr

open OpTree OpTree.Tree

universe u

variable {α : Type u}

/-- A value an operator never goes into: no expression, or a closed paren node. -/
structure Operand (h : Ts.Heap α) (v : Val α) : Prop where
  there : v ≠ .undefined
  known : ∀ i, v = .node i → h.cell i ≠ none
  closed : ∀ q ∈ Ts.opAt h v, q.2.kind = .parenOp ∧ q.2.right = maxSafeInteger

/-- For each further operator, call `prattify` on the root and append the operand to the node it
returns. -/
def Port.runInfix (P : Port α) (root : Val α) : P.State → List (Op × Val α) → Option P.State
  | s, [] => some s
  | s, (op, v) :: rest =>
    match P.prattify s root op with
    | some (s, out) => runInfix P root (P.push s out v) rest
    | none => none

/-- The items of the reference parser. -/
def items (its : List (Op × Val α)) : List (Item Op (Val α)) := its.map fun it => (it.1, leaf it.2)

/-- What holds of the store while an infix expression over the operands `vs` is being built. -/
structure Building (h₀ h : Ts.Heap α) (vs : List (Val α)) (root : ℕ) (t : Tree (ℕ × Op) (Val α)) :
    Prop where
  held : Held Ts.layout h t
  root : rootId t = some root
  complete : Complete t
  kinded : Kinded (erase t)
  noParen : NoParen (erase t)
  leaves : Leaves (· ∈ vs) (erase t)
  frame : ∀ i, h₀.cell i ≠ none → h.cell i = h₀.cell i ∧ i ∉ ids t

section Step

variable {h₀ h h' : Ts.Heap α} {vs : List (Val α)} {r : ℕ} {t t' : Tree (ℕ × Op) (Val α)} {op : Op}
  {v : Val α}

/-- What an operand refers to is the same as long as its node is. -/
theorem Operand.opAt_eq (hv : Operand h₀ v) (frame : ∀ i, h₀.cell i ≠ none → h.cell i = h₀.cell i) :
    Ts.opAt h v = Ts.opAt h₀ v := by
  cases v with
  | undefined | atom => rfl
  | node i => simp [Ts.opAt, Ts.opOf, frame i (hv.known i rfl)]

theorem Building.sealed (hb : Building h₀ h vs r t) (hvs : ∀ v ∈ vs, Operand h₀ v)
    (hop : op.left ≤ maxSafeInteger) : Leaves (Ts.Sealed h op) (erase t) := by
  refine hb.leaves.mono fun v hv q hq => ?_
  rw [(hvs v hv).opAt_eq fun i hi => (hb.frame i hi).1] at hq
  obtain ⟨hk, hr⟩ := (hvs v hv).closed q hq
  exact ⟨hk, hr ▸ hop⟩

theorem Building.operands (hb : Building h₀ h vs r t) (hvs : ∀ v ∈ vs, Operand h₀ v) :
    Leaves (Ts.IsOperand h) (erase t) := by
  refine hb.leaves.mono fun v hv => ⟨(hvs v hv).there, fun q hq => ?_⟩
  rw [(hvs v hv).opAt_eq fun i hi => (hb.frame i hi).1] at hq
  exact ((hvs v hv).closed q hq).1

/-- One operator and its operand. -/
theorem Building.step (P : Port α) {s : P.State} (hb : Building h₀ (P.heap s) vs r t)
    (hvs : ∀ v ∈ vs, Operand h₀ v) (hop : op.kind = .infixOp) (hle : op.left ≤ maxSafeInteger)
    (hv : v ∈ vs) :
    ∃ s' out t', P.prattify s (.node r) op = some (s', out) ∧
      Building h₀ (P.heap (P.push s' out v)) vs r t' ∧
      erase t' = embed (erase t) (op, leaf v) := by
  obtain ⟨⟨_, q⟩, hq, rfl⟩ := Option.map_eq_some_iff.1 ((rootId_eq t).symm.trans hb.root)
  obtain ⟨s', t', out, hs', hrw, he, hd⟩ := P.prattify_infix hb.held hq hb.complete hb.kinded hop
    (hb.sealed hvs hle) (Or.inl hle)
  have hpush := P.rewrites_push hrw.held hd v
  have hrw' := hrw.trans hpush
  have hopen : Open (erase t') := he ▸ open_attach op (complete_erase.2 hb.complete)
  have hfill : erase (fill (leaf v) t') = embed (erase t) (op, leaf v) := by
    rw [erase_fill, he]
    rfl
  refine ⟨s', .node out, fill (leaf v) t', hs',
    ⟨hrw'.held, hrw'.root.trans hb.root, ?_, ?_, ?_, ?_, fun i hi => ?_⟩, hfill⟩
  · exact complete_fill (open_erase.1 hopen) trivial
  · rw [hfill]
    exact kinded_fill (kinded_attach hop hb.kinded) trivial
  · rw [hfill]
    exact noParen_fill (noParen_attach hb.noParen) trivial
  · rw [hfill]
    exact leaves_fill (leaves_attach op hb.leaves) hv
  · obtain ⟨hc, hi'⟩ := hb.frame i hi
    have hne : (P.heap s).cell i ≠ none := hc ▸ hi
    refine ⟨(hrw'.frame i hi' List.not_mem_nil hne).trans hc, fun hmem => ?_⟩
    obtain h' | h' | h' := hrw'.new i hmem
    · exact hi' h'
    · cases h'
    · exact hne h'

/-- All the operators: the tree grows as `embed` says. -/
theorem Building.run (P : Port α) {s : P.State} (hb : Building h₀ (P.heap s) vs r t)
    (hvs : ∀ v ∈ vs, Operand h₀ v) {its : List (Op × Val α)}
    (hits : ∀ it ∈ its, it.1.kind = .infixOp ∧ it.1.left ≤ maxSafeInteger ∧ it.2 ∈ vs) :
    ∃ s' t', P.runInfix (.node r) s its = some s' ∧ Building h₀ (P.heap s') vs r t' ∧
      erase t' = (items its).foldl embed (erase t) := by
  induction its generalizing s t with
  | nil => exact ⟨s, t, rfl, hb, rfl⟩
  | cons it its ih =>
    obtain ⟨op, v⟩ := it
    obtain ⟨hop, hle, hv⟩ := hits _ List.mem_cons_self
    obtain ⟨s₁, out, t₁, hs₁, hb₁, he₁⟩ := hb.step P hvs hop hle hv
    obtain ⟨s', t', hs', hb', he'⟩ := ih hb₁ fun it hit => hits it (List.mem_cons_of_mem _ hit)
    refine ⟨s', t', ?_, hb', ?_⟩
    · simp only [Port.runInfix, hs₁, hs']
    · rw [he', he₁]
      rfl

end Step

/-- The start: the node of the first operator with its two operands. -/
theorem Building.start (P : Port α) (s : P.State) {op : Op} (hop : op.kind = .infixOp) (x y : Val α)
    {vs : List (Val α)} (hx : x ∈ vs) (hy : y ∈ vs) :
    Building (P.heap s) (P.heap (P.newNode s op [x, y]).1) vs ((P.heap s).last + 1)
      (inf ((P.heap s).last + 1, op) (leaf x) (leaf y)) := by
  rw [P.heap_newNode]
  refine ⟨⟨⟨?_, trivial, trivial⟩, ?_⟩, rfl, ⟨trivial, trivial⟩, ⟨hop, trivial, trivial⟩,
    ⟨trivial, trivial⟩, ⟨hx, hy⟩, fun i hi => ⟨Store.cell_alloc_of_ne_none hi, ?_⟩⟩
  · exact Store.cell_alloc_self _ _
  · simp [ids]
  · rintro hmem
    obtain rfl : i = (P.heap s).last + 1 := by simpa [ids] using hmem
    exact hi (Store.cell_next _)

/-- For every table of infix operators whose powers form tiers, the tree `prattify` builds from the
root down is the tree of the reference parser, and no node that was there before has changed. -/
theorem runInfix_denotes_parse (lang : Lang) {table : Set Op} (tiered : Tiered table)
    (hkind : ∀ o ∈ table, o.kind = .infixOp)
    (hpowers : ∀ o ∈ table, minSafeInteger < o.left ∧ o.left < maxSafeInteger ∧
      minSafeInteger < o.right ∧ o.right < maxSafeInteger)
    (s : (lang.port (α := α)).State) {o₁ : Op} (ho₁ : o₁ ∈ table) (t₀ t₁ : Val α)
    (its : List (Op × Val α)) (hits : ∀ it ∈ its, it.1 ∈ table)
    (hops : ∀ v ∈ t₀ :: t₁ :: its.map Prod.snd, Operand (lang.port.heap s) v) :
    ∃ s', lang.port.runInfix (lang.port.newNode s o₁ [t₀, t₁]).2 (lang.port.newNode s o₁ [t₀, t₁]).1
        its = some s' ∧
      Ts.treeOf (lang.port.heap s') (lang.port.newNode s o₁ [t₀, t₁]).2 =
        some (parse minSafeInteger (leaf t₀) ((o₁, leaf t₁) :: items its)) ∧
      ∀ i, (lang.port.heap s).cell i ≠ none →
        (lang.port.heap s').cell i = (lang.port.heap s).cell i := by
  have hb : Building _ _ (t₀ :: t₁ :: its.map Prod.snd) _ _ :=
    Building.start lang.port s (hkind o₁ ho₁) t₀ t₁ (by simp) (by simp)
  have hvs : ∀ it ∈ its, it.2 ∈ t₀ :: t₁ :: its.map Prod.snd := fun it hit =>
    List.mem_cons_of_mem _ (List.mem_cons_of_mem _ (List.mem_map_of_mem hit))
  obtain ⟨s', t', hs', hb', he'⟩ := hb.run lang.port hops fun it hit =>
    ⟨hkind _ (hits it hit), (hpowers _ (hits it hit)).2.1.le, hvs it hit⟩
  rw [lang.port.newNode_snd]
  refine ⟨s', hs', ?_, fun i hi => (hb'.frame i hi).1⟩
  have hread := Ts.treeOf_handle hb'.held hb'.complete hb'.kinded hb'.noParen (hb'.operands hops)
  rw [handle_of_rootId hb'.root, he'] at hread
  refine hread.trans (congrArg some ?_)
  have hunit : ∀ it ∈ (o₁, leaf t₁) :: items its, it.1 ∈ table ∧ IsUnit it.2 := by
    intro it hit
    obtain rfl | hit := List.mem_cons.1 hit
    · exact ⟨ho₁, trivial⟩
    · obtain ⟨jt, hjt, rfl⟩ := List.mem_map.1 hit
      exact ⟨hits jt hjt, trivial⟩
  rw [← foldl_embed_eq_parse tiered (fun o ho => (hpowers o ho).1) (x := leaf t₀) trivial hunit]
  rfl

/-- `1+2*3-4` in Rust. -/
theorem runInfix_denotes_parse_default :
    ∃ s', Lang.rust.port.runInfix (.node 1)
        (Lang.rust.port.newNode Lang.rust.start addition [.atom 1, .atom 2]).1
        [(multiplication, .atom 3), (subtraction, .atom 4)] = some s' ∧
      Ts.treeOf (Lang.rust.port.heap s') (.node 1) =
        some (inf subtraction (inf addition (leaf (.atom 1))
          (inf multiplication (leaf (.atom 2)) (leaf (.atom 3)))) (leaf (.atom 4))) := by
  have hatom : ∀ v ∈ ([.atom 1, .atom 2, .atom 3, .atom 4] : List (Val ℕ)),
      Operand (Lang.rust.port.heap Lang.rust.start) v := by
    intro v hv
    simp only [List.mem_cons, List.not_mem_nil, or_false] at hv
    obtain rfl | rfl | rfl | rfl := hv <;> exact ⟨by simp, by simp, by simp [Ts.opAt]⟩
  have kinds : ∀ o ∈ defaultInfix, o.kind = .infixOp := by decide
  have powers : ∀ o ∈ defaultInfix, minSafeInteger < o.left ∧ o.left < maxSafeInteger ∧
      minSafeInteger < o.right ∧ o.right < maxSafeInteger := by decide
  have table : ∀ o ∈ [addition, multiplication, subtraction], o ∈ defaultInfix := by decide
  obtain ⟨s', hs', hd, -⟩ := runInfix_denotes_parse .rust defaultInfix_tiered kinds powers
    Lang.rust.start (table addition (by simp)) (.atom 1) (.atom 2)
    [(multiplication, .atom 3), (subtraction, .atom 4)]
    (by simpa using ⟨table _ (by simp), table _ (by simp)⟩) hatom
  have hparse : parse minSafeInteger (leaf (.atom 1)) [(addition, leaf (.atom 2)),
      (multiplication, leaf (.atom 3)), (subtraction, leaf (.atom 4))] =
      inf subtraction (inf addition (leaf (.atom 1))
        (inf multiplication (leaf (.atom 2)) (leaf (.atom 3)))) (leaf (.atom 4 : Val ℕ)) := by
    rw [parse_eq, climbed_cons]
    simp [climbed_cons, climbed_nil, addition, multiplication, subtraction, infixDef,
      minSafeInteger]
  exact ⟨s', hs', hd.trans (congrArg some hparse)⟩

end TabnasExpr

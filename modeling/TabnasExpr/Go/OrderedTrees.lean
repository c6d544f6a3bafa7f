import Mathlib.Data.Nat.Pairing
import TabnasExpr.Go.Ordered
import TabnasExpr.Simplify

/-!
# Simplifying the values a tree is read off

A value of the Go port shows a tree when the tree is read off its containers, each by its identity
(`Shows`).  `SimplifyOrdered` makes of such a value what the reading of the three simplifiers on trees
makes of the tree (`simplifyOrdered_shows`).
-/

namespace TabnasExpr.Go.Graph

open Render

universe u

variable {ν : Type u}

/-- A number for the identity of a container. -/
def Container.id : Container → ℕ
  | .list s => 3 * Nat.pair s.array (Nat.pair s.offset s.len)
  | .orderedMap p => 3 * p + 1
  | .map p => 3 * p + 2

theorem Container.id_injective : Function.Injective Container.id := by
  intro c c' h
  cases c with
  | list s =>
    cases c' with
    | list t =>
      have hpair : Nat.pair s.array (Nat.pair s.offset s.len) = Nat.pair t.array (Nat.pair t.offset t.len) :=
        Nat.eq_of_mul_eq_mul_left (by decide) h
      obtain ⟨ha, hol⟩ := Nat.pair_eq_pair.1 hpair
      obtain ⟨ho, hl⟩ := Nat.pair_eq_pair.1 hol
      exact congrArg Container.list (Slice.ext ha ho hl)
    | orderedMap q | map q =>
      simp only [Container.id] at h
      omega
  | orderedMap p | map p =>
    cases c' <;> simp only [Container.id] at h <;> first | omega | (congr 1; omega)

/-- The list a value is. -/
def slice (g : Graph (Scalar ν)) : Any (Scalar ν) → Option Slice
  | .listRef (some p) => some (g.box p)
  | .slice s => some s
  | _ => none

/-- The keys and values of a map, in its order. -/
def entries (g : Graph (Scalar ν)) : Container → List (String × Any (Scalar ν))
  | .orderedMap p => (g.orderedMap p).keys.map fun k => (k, (g.orderedMap p).val k)
  | .map p => g.map p
  | .list _ => []

/-- The keys of a map are distinct, and an ordered map has no others among its values. -/
structure Proper (g : Graph (Scalar ν)) (c : Container) : Prop where
  nodup : ((g.entries c).map Prod.fst).Nodup
  keys : ∀ p, c = .orderedMap p → ∀ m ∈ (g.orderedMap p).vals, m.1 ∈ (g.orderedMap p).keys

mutual

/-- The tree is read off the value. -/
def Shows (g : Graph (Scalar ν)) (v : Any (Scalar ν)) : Doc ν → Prop
  | .undefined => v = .unfilled
  | .scalar x => v = .scalar x ∨ x = .null ∧ (v = .nil ∨ v = .listRef none ∨ v = .orderedMap none)
  | .list id _ xs => ∃ s, g.slice v = some s ∧ id = (Container.list s).id ∧ ShowsAll g (g.elements s) xs
  | .map id ms => ∃ c, (∀ s, c ≠ .list s) ∧ g.opens v = some c ∧ id = c.id ∧ g.Proper c ∧
    ShowsMembers g (g.entries c) ms
  | .expr id op terms => ∃ s els, g.slice v = some s ∧ id = (Container.list s).id ∧
    g.elements s = .op op :: els ∧ ShowsAll g els terms

def ShowsAll (g : Graph (Scalar ν)) : List (Any (Scalar ν)) → List (Doc ν) → Prop
  | [], [] => True
  | v :: vs, x :: xs => Shows g v x ∧ ShowsAll g vs xs
  | _, _ => False

def ShowsMembers (g : Graph (Scalar ν)) : List (String × Any (Scalar ν)) → List (String × Doc ν) → Prop
  | [], [] => True
  | (k, v) :: es, (k', x) :: ms => k = k' ∧ Shows g v x ∧ ShowsMembers g es ms
  | _, _ => False

end

mutual

/-- A result as the reading on trees has it. -/
def Ordered.read : Ordered (Scalar ν) → Reduced ν
  | .nil => .scalar .null
  | .scalar v => .scalar v
  | .circle => TabnasExpr.circle
  | .op _ | .unfilled => .undefined
  | .list xs => .list (readAll xs)
  | .orderedMap ms | .map ms => .obj (readMembers ms)

def Ordered.readAll : List (Ordered (Scalar ν)) → List (Reduced ν)
  | [] => []
  | x :: xs => x.read :: readAll xs

def Ordered.readMembers : List (String × Ordered (Scalar ν)) → List (String × Reduced ν)
  | [] => []
  | (k, x) :: ms => (k, x.read) :: readMembers ms

end

/-- A text with something in it. -/
def isText : Scalar ν → Bool
  | .str s => s ≠ ""
  | _ => false

/-- The source text of an operator. -/
def source (op : Op) : Scalar ν := .str op.src

section Read

variable {g : Graph (Scalar ν)} {v : Any (Scalar ν)} {x : Doc ν} {s : Slice} {c : Container}

theorem Ordered.readAll_eq (xs : List (Ordered (Scalar ν))) : readAll xs = xs.map read := by
  induction xs with
  | nil => rfl
  | cons x xs ih => rw [readAll, ih, List.map_cons]

theorem Ordered.readMembers_eq (ms : List (String × Ordered (Scalar ν))) :
    readMembers ms = ms.map fun m => (m.1, m.2.read) := by
  induction ms with
  | nil => rfl
  | cons m ms ih => rw [readMembers, ih, List.map_cons]

theorem simplifyValue_of_slice {f : Container → Option (Ordered (Scalar ν))} (h : g.slice v = some s) :
    g.simplifyValue f v = if g.elements s = [] then some (.list []) else f (.list s) := by
  cases v with
  | listRef p =>
    cases p with
    | none => cases h
    | some p =>
      cases h
      by_cases he : g.elements (g.box p) = [] <;> simp [simplifyValue, opens, he, bare]
  | slice t =>
    cases h
    by_cases he : g.elements s = [] <;> simp [simplifyValue, opens, he, bare]
  | _ => cases h

theorem isUnfilled_of_shows (h : g.Shows v x) : v.isUnfilled = true ↔ x = .undefined := by
  cases x with
  | undefined =>
    obtain rfl : v = .unfilled := h
    simp [Any.isUnfilled]
  | scalar y =>
    rcases h with rfl | ⟨-, rfl | rfl | rfl⟩ <;> simp [Any.isUnfilled]
  | list id boxed xs =>
    obtain ⟨s, hs, -⟩ := h
    cases v <;> simp [slice] at hs <;> simp [Any.isUnfilled]
  | map id ms =>
    obtain ⟨c, -, hs, -⟩ := h
    cases v <;> simp [opens] at hs <;> simp [Any.isUnfilled]
  | expr id op ts =>
    obtain ⟨s, els, hs, -⟩ := h
    cases v <;> simp [slice] at hs <;> simp [Any.isUnfilled]

theorem sourceText_of_shows (h : g.Shows v x) : sourceText isText (some v) = x.text.map .str := by
  cases x with
  | undefined =>
    obtain rfl : v = .unfilled := h
    rfl
  | scalar y =>
    rcases h with rfl | ⟨rfl, rfl | rfl | rfl⟩
    · cases y with
      | str t =>
        by_cases ht : t = "" <;> simp [sourceText, isText, Doc.text, ht]
      | _ => rfl
    all_goals rfl
  | list id boxed xs =>
    obtain ⟨s, hs, -⟩ := h
    cases v <;> simp [slice] at hs <;> rfl
  | map id ms =>
    obtain ⟨c, -, hs, -⟩ := h
    cases v <;> simp [opens] at hs <;> rfl
  | expr id op ts =>
    obtain ⟨s, els, hs, -⟩ := h
    cases v <;> simp [slice] at hs <;> rfl

theorem lookup_of_showsMembers {es : List (String × Any (Scalar ν))} {ms : List (String × Doc ν)}
    (h : g.ShowsMembers es ms) (k : String) :
    sourceText isText (es.lookup k) = ((ms.lookup k).bind Doc.text).map .str := by
  induction es generalizing ms with
  | nil =>
    cases ms with
    | nil => rfl
    | cons m ms => exact h.elim
  | cons e es ih =>
    cases ms with
    | nil => exact h.elim
    | cons m ms =>
      obtain ⟨k', x⟩ := m
      obtain ⟨rfl, hx, hms⟩ := h
      rw [List.lookup_cons, List.lookup_cons]
      cases k == e.1 with
      | true => exact sourceText_of_shows hx
      | false => exact ih hms

/-- An ordered map has its values under its keys. -/
theorem sourceText_entries {p : ℕ} (h : g.Proper (.orderedMap p)) (k : String) :
    sourceText isText ((g.orderedMap p).vals.lookup k) =
      sourceText isText ((g.entries (.orderedMap p)).lookup k) := by
  have hlookup (keys : List String) : (keys.map fun k => (k, (g.orderedMap p).val k)).lookup k =
      if k ∈ keys then some ((g.orderedMap p).val k) else none := by
    induction keys with
    | nil => rfl
    | cons k' keys ih =>
      rw [List.map_cons, List.lookup_cons, ih]
      by_cases hk : k = k'
      · simp [hk]
      · simp [hk, beq_eq_false_iff_ne.2 hk]
  rw [entries, hlookup]
  cases hv : (g.orderedMap p).vals.lookup k with
  | none => split_ifs <;> simp [sourceText, OrderedMap.val, hv]
  | some w =>
    obtain ⟨_, _, hm, -⟩ := List.lookup_eq_some_iff.1 hv
    have hk := h.keys p rfl (k, w) (hm ▸ List.mem_append_right _ List.mem_cons_self)
    rw [if_pos hk, OrderedMap.val, hv]
    rfl

/-- A head is read alike from the value and from the tree. -/
theorem operatorSource_of_shows (h : g.Shows v x) :
    g.operatorSource source isText v = (x.src.bind Doc.text).map .str := by
  cases x with
  | undefined =>
    obtain rfl : v = .unfilled := h
    rfl
  | scalar y => rcases h with rfl | ⟨-, rfl | rfl | rfl⟩ <;> rfl
  | list id boxed xs =>
    obtain ⟨s, hs, -⟩ := h
    cases v <;> simp [slice] at hs <;> rfl
  | expr id op ts =>
    obtain ⟨s, els, hs, -⟩ := h
    cases v <;> simp [slice] at hs <;> rfl
  | map id ms =>
    obtain ⟨c, hc, hs, -, hp, hms⟩ := h
    have hlookup := lookup_of_showsMembers hms "src"
    cases v with
    | orderedMap p =>
      cases p with
      | none => cases hs
      | some p =>
        cases hs
        exact (sourceText_entries hp "src").trans hlookup
    | map p =>
      cases hs
      exact hlookup
    | listRef p =>
      cases p with
      | none => cases hs
      | some p =>
        simp only [opens] at hs
        split_ifs at hs
        cases hs
        exact absurd rfl (hc _)
    | slice t =>
      simp only [opens] at hs
      split_ifs at hs
      cases hs
      exact absurd rfl (hc _)
    | _ => cases hs

end Read

section Agreement

variable {g : Graph (Scalar ν)} {f : Any (Scalar ν) → Option (Ordered (Scalar ν))} {o : List ℕ}

/-- What is made of a value is, read, what is made of the tree. -/
def Agrees (g : Graph (Scalar ν)) (f : Any (Scalar ν) → Option (Ordered (Scalar ν))) (o : List ℕ)
    (x : Doc ν) : Prop :=
  ∀ v r, g.Shows v x → f v = some r → r.read = simplifyIn o x

theorem read_terms {els : List (Any (Scalar ν))} {xs : List (Doc ν)} {rs : List (Ordered (Scalar ν))}
    (ih : ∀ x ∈ xs, Agrees g f o x) (h : g.ShowsAll els xs) (hrs : orderedTerms f els = some rs) :
    rs.map Ordered.read = simplifyAll o xs := by
  induction xs generalizing els rs with
  | nil =>
    cases els with
    | nil =>
      cases hrs
      rfl
    | cons v els => exact h.elim
  | cons x xs ihxs =>
    cases els with
    | nil => exact h.elim
    | cons v els =>
      obtain ⟨hx, hxs⟩ := h
      rw [List.forall_mem_cons] at ih
      rw [orderedTerms] at hrs
      by_cases hu : x = .undefined
      · rw [if_pos ((isUnfilled_of_shows hx).2 hu)] at hrs
        subst hu
        exact ihxs ih.2 hxs hrs
      · rw [if_neg fun hv => hu ((isUnfilled_of_shows hx).1 hv)] at hrs
        simp only [Option.bind_eq_bind, Option.bind_eq_some_iff, Option.some.injEq] at hrs
        obtain ⟨r, hr, rest, hrest, rfl⟩ := hrs
        rw [simplifyAll_cons hu, List.map_cons, ih.1 v r hx hr, ihxs ih.2 hxs hrest]

theorem read_entries {es : List (String × Any (Scalar ν))} {ms : List (String × Doc ν)}
    {rs : List (String × Ordered (Scalar ν))} (ih : ∀ m ∈ ms, Agrees g f o m.2) (h : g.ShowsMembers es ms)
    (hrs : (es.mapM fun e => (f e.2).map (e.1, ·)) = some rs) :
    (rs.map fun m => (m.1, m.2.read)) = simplifyMembers o ms := by
  induction ms generalizing es rs with
  | nil =>
    cases es with
    | nil =>
      cases hrs
      rfl
    | cons e es => exact h.elim
  | cons m ms ihms =>
    cases es with
    | nil => exact h.elim
    | cons e es =>
      obtain ⟨k, x⟩ := m
      obtain ⟨rfl, hx, hms⟩ := h
      rw [List.forall_mem_cons] at ih
      simp only [List.mapM_cons, Option.bind_eq_bind, Option.bind_eq_some_iff, Option.map_eq_some_iff,
        Option.pure_def, Option.some.injEq] at hrs
      obtain ⟨_, ⟨r, hr, rfl⟩, rest, hrest, rfl⟩ := hrs
      rw [List.map_cons, simplifyMembers, ih.1 e.2 r hx hr, ihms ih.2 hms hrest]

/-- What is made of a container is, read, a circle inside of itself. -/
theorem read_container {c : Container} {opened : List Container} {fuel : ℕ} {r : Ordered (Scalar ν)}
    {y : Reduced ν} (hr : g.container source isText fuel opened c = some r)
    (h : ∀ n, g.reduced source isText (g.simplifyValue (g.container source isText n (c :: opened))) c =
      some r → r.read = y) :
    r.read = if c.id ∈ opened.map Container.id then TabnasExpr.circle else y := by
  cases fuel with
  | zero => cases hr
  | succ fuel =>
    rw [container] at hr
    by_cases hon : c ∈ opened
    · rw [if_pos hon] at hr
      cases hr
      exact (if_pos (List.mem_map_of_mem hon)).symm
    · rw [if_neg hon] at hr
      rw [if_neg (mt (List.mem_map_of_injective Container.id_injective).1 hon)]
      exact h fuel hr

theorem simplifyList_eq (x : Doc ν) (xs : List (Doc ν)) : simplifyList o (x :: xs) =
    ((x.src.bind Doc.text).elim (simplifyAll o [x]) fun text => [.str text]) ++ simplifyAll o xs := by
  by_cases hu : x = .undefined
  · subst hu
    rfl
  · rw [simplifyList, simplifyAll_cons hu]
    · cases x.src.bind Doc.text <;> rfl
    · exact hu

/-- What is made of a list, the first of it read as a head. -/
theorem read_list {head : Any (Scalar ν)} {els : List (Any (Scalar ν))} {x : Doc ν} {xs : List (Doc ν)}
    {r : Ordered (Scalar ν)} {s : Slice} (ih : ∀ y ∈ x :: xs, Agrees g f o y)
    (he : g.elements s = head :: els) (h : g.ShowsAll (head :: els) (x :: xs))
    (hr : g.reduced source isText f (.list s) = some r) : r.read = .list (simplifyList o (x :: xs)) := by
  simp only [reduced, he, Option.bind_eq_bind, Option.bind_eq_some_iff, Option.some.injEq] at hr
  obtain ⟨lead, hlead, rest, hrest, rfl⟩ := hr
  rw [List.forall_mem_cons] at ih
  have hlead' : lead.map Ordered.read =
      (x.src.bind Doc.text).elim (simplifyAll o [x]) fun text => [.str text] := by
    rw [orderedHead, operatorSource_of_shows h.1] at hlead
    cases ht : x.src.bind Doc.text with
    | some text =>
      rw [ht] at hlead
      cases hlead
      rfl
    | none =>
      rw [ht] at hlead
      have hall : g.ShowsAll [head] [x] := by simpa [ShowsAll] using h.1
      exact read_terms (List.forall_mem_singleton.2 ih.1) hall hlead
  rw [Ordered.read, Ordered.readAll_eq, List.map_append, read_terms ih.2 h.2 hrest, hlead',
    simplifyList_eq]

/-- What is made of a map. -/
theorem read_map {c : Container} {ms : List (String × Doc ν)} {r : Ordered (Scalar ν)}
    (ih : ∀ m ∈ ms, Agrees g f o m.2) (hc : ∀ s, c ≠ .list s) (hp : g.Proper c)
    (h : g.ShowsMembers (g.entries c) ms) (hr : g.reduced source isText f c = some r) :
    r.read = .obj (simplifyMembers o ms) := by
  cases c with
  | list s => exact absurd rfl (hc s)
  | orderedMap p =>
    rw [reduced, orderedMembers_eq (by simpa [entries, Function.comp_def] using hp.nodup) (by simp)] at hr
    simp only [Option.map_map, Option.map_eq_some_iff] at hr
    obtain ⟨rs, hrs, rfl⟩ := hr
    simp [Ordered.read, Ordered.readMembers_eq, read_entries ih h hrs]
  | map p =>
    rw [reduced, Option.map_eq_some_iff] at hr
    obtain ⟨rs, hrs, rfl⟩ := hr
    rw [Ordered.read, Ordered.readMembers_eq, read_entries ih h hrs]

/-- Inside of any containers, what is made of a value is what is made of the tree read off it. -/
theorem agrees (x : Doc ν) (fuel : ℕ) (opened : List Container) :
    Agrees g (g.simplifyValue (g.container source isText fuel opened)) (opened.map Container.id) x := by
  induction x using Doc.induction generalizing fuel opened with
  | undefined =>
    rintro v r rfl hr
    cases hr
    rfl
  | scalar y =>
    rintro v r (rfl | ⟨rfl, rfl | rfl | rfl⟩) hr <;>
    · cases hr
      rfl
  | list id boxed xs ih =>
    rintro v r ⟨s, hs, rfl, hall⟩ hr
    rw [simplifyValue_of_slice hs] at hr
    cases he : g.elements s with
    | nil =>
      rw [if_pos he] at hr
      cases hr
      rw [he] at hall
      cases xs with
      | nil => rfl
      | cons x xs => exact hall.elim
    | cons head els =>
      rw [he] at hall
      rw [if_neg (by simp [he])] at hr
      cases xs with
      | nil => exact hall.elim
      | cons x xs => exact read_container hr fun n hr => read_list (fun y hy => ih y hy n _) he hall hr
  | map id ms ih =>
    rintro v r ⟨c, hc, hs, rfl, hp, hms⟩ hr
    rw [simplifyValue, hs] at hr
    exact read_container hr fun n hr => read_map (fun m hm => ih m hm n _) hc hp hms hr
  | expr id op terms ih =>
    rintro v r ⟨s, els, hs, rfl, he, hall⟩ hr
    rw [simplifyValue_of_slice hs, if_neg (by simp [he])] at hr
    refine read_container hr fun n hr => ?_
    simp only [reduced, he, Option.bind_eq_bind, Option.bind_eq_some_iff, Option.some.injEq] at hr
    obtain ⟨lead, hlead, rest, hrest, rfl⟩ := hr
    cases hlead
    rw [Ordered.read, Ordered.readAll_eq, List.map_append, read_terms (fun y hy => ih y hy n _) hall hrest]
    rfl

end Agreement

/-- `SimplifyOrdered` makes of a value that shows a tree what the tree simplifies to. -/
theorem simplifyOrdered_shows {g : Graph (Scalar ν)} {v : Any (Scalar ν)} {x : Doc ν} (h : g.Shows v x) :
    ∃ r, (∀ fuel, (g.containers v).length < fuel → g.simplifyOrdered source isText fuel v = some r) ∧
      r.read = Go.simplifyOrdered x := by
  obtain ⟨r, hr, -⟩ := g.simplifyOrdered_ends source isText v
  exact ⟨r, hr, agrees x _ [] v r h (hr _ (Nat.lt_succ_self _))⟩

/-- `1+2` in a box beside a map. -/
def boxedSum : Graph (Scalar ℕ) where
  boxes := [⟨0, 0, 3⟩]
  arrays := [[.op ⟨"addition", "+", .infixOp, 2000000, 2100000⟩, .scalar (.num (.finite false 1)),
    .scalar (.num (.finite false 2))], [.listRef (some 0), .orderedMap (some 0)]]
  orderedMaps := [⟨["src"], [("src", .scalar (.str "x"))]⟩]
  maps := []

theorem simplifyOrdered_shows_boxedSum :
    ∃ r, (∀ fuel, (boxedSum.containers (.slice ⟨1, 0, 2⟩)).length < fuel →
        boxedSum.simplifyOrdered source isText fuel (.slice ⟨1, 0, 2⟩) = some r) ∧
      r.read = Go.simplifyOrdered (.list (Container.list ⟨1, 0, 2⟩).id false
        [.expr (Container.list ⟨0, 0, 3⟩).id ⟨"addition", "+", .infixOp, 2000000, 2100000⟩
          [.scalar (.num (.finite false 1)), .scalar (.num (.finite false 2))],
          .map (Container.orderedMap 0).id [("src", .scalar (.str "x"))]]) := by
  refine simplifyOrdered_shows ⟨⟨1, 0, 2⟩, rfl, rfl, ?_, ?_, trivial⟩
  · exact ⟨⟨0, 0, 3⟩, _, rfl, rfl, rfl, .inl rfl, .inl rfl, trivial⟩
  · refine ⟨.orderedMap 0, by simp, rfl, rfl, ⟨by decide, ?_⟩, rfl, .inl rfl, trivial⟩
    rintro p hp m hm
    cases hp
    simp [Graph.orderedMap, boxedSum] at hm ⊢
    exact congrArg Prod.fst hm

end TabnasExpr.Go.Graph

import Mathlib.Algebra.GroupWithZero.Nat
import Mathlib.Data.List.Sort
import TabnasExpr.Render.Events

/-!
# The three simplifiers

A parse is reduced to plain values by `simplify` in TypeScript, `SimplifyOrdered` in Go and
`simplify` in Rust: an operation becomes the list of its operator's source text and its terms, and
every other list and map is reduced member by member.  What leads an operation is told apart in
three ways.  TypeScript takes the `src` of a map that leads a list whenever it is truthy, and takes
it as it is; the other two take it only when it is a text with something in it, and Rust only from a
plain list.  A map of TypeScript is an object, which has the keys that are indices first, whatever the
order they were set in; the maps of the other two keep theirs.
-/

namespace TabnasExpr

open Render

universe u

variable {ν : Type u}

/-- A parsed value.  Containers have an identity, and a list is boxed when the engine hands it on with
what it knows of it. -/
inductive Doc (ν : Type u) where
  | undefined
  | scalar (v : Scalar ν)
  | list (id : ℕ) (boxed : Bool) (xs : List (Doc ν))
  | map (id : ℕ) (ms : List (String × Doc ν))
  | expr (id : ℕ) (op : Op) (terms : List (Doc ν))

/-- A value as a caller reads it. -/
inductive Reduced (ν : Type u) where
  | undefined
  | scalar (v : Scalar ν)
  | list (xs : List (Reduced ν))
  | obj (ms : List (String × Reduced ν))

/-- A text. -/
def Reduced.str (s : String) : Reduced ν := .scalar (.str s)

/-- What stands for a container inside itself. -/
def circle : Reduced ν := .str "[CIRCLE]"

/-- The elements of a list but the unfilled ones. -/
def filled : List (Reduced ν) → List (Reduced ν)
  | [] => []
  | .undefined :: xs => filled xs
  | x :: xs => x :: filled xs

namespace Doc

/-- A property of every value, from what it contains up. -/
theorem induction {P : Doc ν → Prop} (undefined : P .undefined) (scalar : ∀ v, P (.scalar v))
    (list : ∀ id boxed xs, (∀ x ∈ xs, P x) → P (.list id boxed xs))
    (map : ∀ id ms, (∀ m ∈ ms, P m.2) → P (.map id ms))
    (expr : ∀ id op terms, (∀ x ∈ terms, P x) → P (.expr id op terms)) (t : Doc ν) : P t :=
  match t with
  | .undefined => undefined
  | .scalar v => scalar v
  | .list id boxed xs => list id boxed xs (all xs)
  | .map id ms => map id ms (members ms)
  | .expr id op terms => expr id op terms (all terms)
where
  all : ∀ xs : List (Doc ν), ∀ x ∈ xs, P x
  | [] => by simp
  | x :: xs => by
    rintro y (_ | ⟨_, hy⟩)
    · exact induction undefined scalar list map expr x
    · exact all xs y hy
  members : ∀ ms : List (String × Doc ν), ∀ m ∈ ms, P m.2
  | [] => by simp
  | (k, x) :: ms => by
    rintro m (_ | ⟨_, hm⟩)
    · exact induction undefined scalar list map expr x
    · exact members ms m hm

/-- The `src` member of a map. -/
def src : Doc ν → Option (Doc ν)
  | map _ ms => ms.lookup "src"
  | _ => none

/-- The text a value is, when there is something in it. -/
def text : Doc ν → Option String
  | scalar (.str s) => if s = "" then none else some s
  | _ => none

variable [Zero ν] [DecidableEq ν]

/-- What JavaScript takes for true. -/
def truthy : Doc ν → Bool
  | undefined => false
  | scalar .null => false
  | scalar (.bool b) => b
  | scalar (.num (.finite _ n)) => n ≠ 0
  | scalar (.num .nan) => false
  | scalar (.num _) => true
  | scalar (.str s) => s ≠ ""
  | _ => true

end Doc

/-! ## TypeScript -/

namespace Ts

section Objects

variable {β γ : Type*}

/-- The index a key is to JavaScript: a whole number below `2 ^ 32 - 1`, in its own digits. -/
def arrayIndex (k : String) : Option ℕ :=
  k.toNat?.filter fun n => toString n = k ∧ n < 2 ^ 32 - 1

/-- The order of the properties of an object, by their keys: the indices first, in ascending order, and
then the other keys as they were set. -/
def ownOrder (key : β → String) (xs : List β) : List β :=
  ((xs.filter fun x => (arrayIndex (key x)).isSome).insertionSort fun x y =>
      (arrayIndex (key x)).getD 0 ≤ (arrayIndex (key y)).getD 0) ++
    xs.filter fun x => (arrayIndex (key x)).isNone

/-- The properties of the object that is built by setting entries in order. -/
def ownEntries (ms : List (String × β)) : List (String × β) := ownOrder Prod.fst ms

/-- An object that is built in this order keeps it. -/
def InOwnOrder (keys : List String) : Prop := ownOrder id keys = keys

theorem perm_ownOrder (key : β → String) (xs : List β) : (ownOrder key xs).Perm xs := by
  refine ((List.perm_insertionSort _ _).append_right _).trans ?_
  have hparts := List.filter_append_perm (fun x => (arrayIndex (key x)).isSome) xs
  simpa using hparts

theorem map_ownOrder (f : β → γ) (key : γ → String) (xs : List β) :
    (ownOrder (key ∘ f) xs).map f = ownOrder key (xs.map f) := by
  unfold ownOrder
  rw [List.map_append, List.filter_map, List.filter_map]
  congr 1
  exact List.map_insertionSort _ _ f _ fun _ _ _ _ => Iff.rfl

theorem mem_ownEntries {ms : List (String × β)} {m : String × β} : m ∈ ownEntries ms ↔ m ∈ ms :=
  (perm_ownOrder Prod.fst ms).mem_iff

theorem map_fst_ownEntries (ms : List (String × β)) :
    (ownEntries ms).map Prod.fst = ownOrder id (ms.map Prod.fst) :=
  map_ownOrder Prod.fst id ms

/-- Entries with distinct keys are in order when their keys are. -/
theorem ownEntries_eq_self {ms : List (String × β)} (h : (ms.map Prod.fst).Nodup)
    (hkeys : InOwnOrder (ms.map Prod.fst)) : ownEntries ms = ms := by
  have hfst := (map_fst_ownEntries ms).trans hkeys
  refine List.ext_getElem (perm_ownOrder Prod.fst ms).length_eq fun i hi hi' => ?_
  refine List.inj_on_of_nodup_map h (mem_ownEntries.1 (List.getElem_mem hi)) (List.getElem_mem hi') ?_
  rw [← List.getElem_map Prod.fst (h := by simpa using hi), ← List.getElem_map Prod.fst (h := by simpa using hi')]
  simp only [hfst]

end Objects

section

variable (describe : Op → List (String × Reduced ν))

mutual

/-- A value as it is; `describe` gives the members of the object an operator is. -/
def raw : Doc ν → Reduced ν
  | .undefined => .undefined
  | .scalar v => .scalar v
  | .list _ _ xs => .list (rawAll xs)
  | .map _ ms => .obj (ownEntries (rawMembers ms))
  | .expr _ op terms => .list (.obj (describe op) :: rawAll terms)

def rawAll : List (Doc ν) → List (Reduced ν)
  | [] => []
  | x :: xs => raw x :: rawAll xs

def rawMembers : List (String × Doc ν) → List (String × Reduced ν)
  | [] => []
  | (k, x) :: ms => (k, raw x) :: rawMembers ms

end

variable (omap : List (String × Reduced ν) → List (String × Reduced ν)) [Zero ν] [DecidableEq ν]

mutual

/-- `reduce`, inside some containers; `omap` builds the object of the entries its callback gives. -/
def reduce (open' : List ℕ) : Doc ν → Reduced ν
  | .undefined => .undefined
  | .scalar v => .scalar v
  | .list id _ xs => if id ∈ open' then circle else .list (filled (reduceList (id :: open') xs))
  | .map id ms =>
    if id ∈ open' then circle else .obj (omap (reduceMembers (id :: open') ms))
  | .expr id op terms =>
    if id ∈ open' then circle
    else
      -- the operator is an object, and reduces to one where its text is empty
      let head := if op.src = "" then .obj (describe op) else .str op.src
      .list (filled (head :: reduceAll (id :: open') terms))

/-- The elements of an array, the first of them read as a head. -/
def reduceList (open' : List ℕ) : List (Doc ν) → List (Reduced ν)
  | [] => []
  | x :: xs =>
    (match x.src.filter Doc.truthy with
      | some v => raw describe v
      | none => reduce open' x) :: reduceAll open' xs

def reduceAll (open' : List ℕ) : List (Doc ν) → List (Reduced ν)
  | [] => []
  | x :: xs => reduce open' x :: reduceAll open' xs

def reduceMembers (open' : List ℕ) : List (String × Doc ν) → List (String × Reduced ν)
  | [] => []
  | (k, x) :: ms => (k, reduce open' x) :: reduceMembers open' ms

end

def simplify (t : Doc ν) : Reduced ν := reduce describe omap [] t

end

end Ts

/-! ## Go -/

namespace Go

mutual

/-- `simplifyOrdered`, inside some containers. -/
def simplifyIn (open' : List ℕ) : Doc ν → Reduced ν
  | .undefined => .undefined
  | .scalar v => .scalar v
  | .list _ _ [] => .list []
  | .list id _ xs => if id ∈ open' then circle else .list (simplifyList (id :: open') xs)
  | .map id ms => if id ∈ open' then circle else .obj (simplifyMembers (id :: open') ms)
  | .expr id op terms =>
    if id ∈ open' then circle else .list (.str op.src :: simplifyAll (id :: open') terms)

/-- The elements of a list that is not empty, the first of them read as a head. -/
def simplifyList (open' : List ℕ) : List (Doc ν) → List (Reduced ν)
  | [] => []
  | x :: xs =>
    match x.src.bind Doc.text with
    | some s => .str s :: simplifyAll open' xs
    | none =>
      match x with
      | .undefined => simplifyAll open' xs
      | x => simplifyIn open' x :: simplifyAll open' xs

/-- The elements of a list but the unfilled ones. -/
def simplifyAll (open' : List ℕ) : List (Doc ν) → List (Reduced ν)
  | [] => []
  | .undefined :: xs => simplifyAll open' xs
  | x :: xs => simplifyIn open' x :: simplifyAll open' xs

def simplifyMembers (open' : List ℕ) : List (String × Doc ν) → List (String × Reduced ν)
  | [] => []
  | (k, x) :: ms => (k, simplifyIn open' x) :: simplifyMembers open' ms

end

def simplifyOrdered (t : Doc ν) : Reduced ν := simplifyIn [] t

end Go

/-! ## Rust -/

namespace Rust

mutual

/-- `simplify_seen`, inside some operator nodes. -/
def simplifySeen (open' : List ℕ) : Doc ν → Reduced ν
  | .undefined => .undefined
  | .scalar v => .scalar v
  | .list _ true xs => .list (simplifyEach open' xs)
  | .list _ false [] => .list []
  | .list _ false (x :: xs) =>
    match x.src.bind Doc.text with
    | some s => .list (.str s :: simplifyFilled open' xs)
    | none => .list (simplifySeen open' x :: simplifyEach open' xs)
  | .map _ ms => .obj (simplifyMembers open' ms)
  | .expr id op terms =>
    if id ∈ open' then circle else .list (.str op.src :: simplifyFilled (id :: open') terms)

def simplifyEach (open' : List ℕ) : List (Doc ν) → List (Reduced ν)
  | [] => []
  | x :: xs => simplifySeen open' x :: simplifyEach open' xs

/-- The terms of an operation but the unfilled ones. -/
def simplifyFilled (open' : List ℕ) : List (Doc ν) → List (Reduced ν)
  | [] => []
  | .undefined :: xs => simplifyFilled open' xs
  | x :: xs => simplifySeen open' x :: simplifyFilled open' xs

def simplifyMembers (open' : List ℕ) : List (String × Doc ν) → List (String × Reduced ν)
  | [] => []
  | (k, x) :: ms => (k, simplifySeen open' x) :: simplifyMembers open' ms

end

def simplify (t : Doc ν) : Reduced ν := simplifySeen [] t

end Rust

/-! ## Trees -/

namespace Doc

mutual

/-- A value without unfilled parts but for the terms of operators, in which no container is inside
itself or one of these, and the keys of a map are distinct. -/
def IsTree (open' : List ℕ) : Doc ν → Prop
  | undefined => False
  | scalar _ => True
  | list id _ xs => id ∉ open' ∧ AreTrees (id :: open') xs
  | map id ms => id ∉ open' ∧ (ms.map Prod.fst).Nodup ∧ AreMembers (id :: open') ms
  | expr id _ terms => id ∉ open' ∧ AreTerms (id :: open') terms

def AreTrees (open' : List ℕ) : List (Doc ν) → Prop
  | [] => True
  | x :: xs => IsTree open' x ∧ AreTrees open' xs

def AreMembers (open' : List ℕ) : List (String × Doc ν) → Prop
  | [] => True
  | (_, x) :: ms => IsTree open' x ∧ AreMembers open' ms

def AreTerms (open' : List ℕ) : List (Doc ν) → Prop
  | [] => True
  | undefined :: xs => AreTerms open' xs
  | x :: xs => IsTree open' x ∧ AreTerms open' xs

end

variable [Zero ν] [DecidableEq ν]

/-- A value that leads a list is read alike: a `src` that JavaScript takes for true is a text, and the
list is a plain one. -/
def LeadsAlike (boxed : Bool) (x : Doc ν) : Prop :=
  ∀ v ∈ x.src, v.truthy = true → boxed = false ∧ v.text ≠ none

mutual

/-- Wherever a simplifier goes, what leads a list is read alike, every operator has a source text, and
the keys of every map are in the order of an object's. -/
def Agreeable : Doc ν → Prop
  | undefined => True
  | scalar _ => True
  | list _ boxed xs => AgreeableList boxed xs
  | map _ ms => Ts.InOwnOrder (ms.map Prod.fst) ∧ AgreeableMembers ms
  | expr _ op terms => op.src ≠ "" ∧ AgreeableAll terms

/-- The map that stands for a source text is not gone into. -/
def AgreeableList (boxed : Bool) : List (Doc ν) → Prop
  | [] => True
  | x :: xs => LeadsAlike boxed x ∧ (x.src.bind text = none → Agreeable x) ∧ AgreeableAll xs

def AgreeableAll : List (Doc ν) → Prop
  | [] => True
  | x :: xs => Agreeable x ∧ AgreeableAll xs

def AgreeableMembers : List (String × Doc ν) → Prop
  | [] => True
  | (_, x) :: ms => Agreeable x ∧ AgreeableMembers ms

end

end Doc

/-! ## Agreement -/

section Agreement

variable {describe : Op → List (String × Reduced ν)}
  {omap : List (String × Reduced ν) → List (String × Reduced ν)}

theorem mem_of_lookup {β : Type*} {ms : List (String × β)} {k : String} {v : β}
    (h : ms.lookup k = some v) : (k, v) ∈ ms := by
  obtain ⟨l, r, rfl, -⟩ := List.lookup_eq_some_iff.1 h
  simp

theorem Doc.areMembers_iff {o : List ℕ} {ms : List (String × Doc ν)} :
    Doc.AreMembers o ms ↔ ∀ m ∈ ms, m.2.IsTree o := by
  induction ms with
  | nil => simp [Doc.AreMembers]
  | cons m ms ih => simp [Doc.AreMembers, ih]

theorem mem_rawMembers {ms : List (String × Doc ν)} {k : String} {y : Reduced ν} :
    (k, y) ∈ Ts.rawMembers describe ms ↔ ∃ x, (k, x) ∈ ms ∧ Ts.raw describe x = y := by
  induction ms with
  | nil => simp [Ts.rawMembers]
  | cons m ms ih =>
    rw [Ts.rawMembers, List.mem_cons, ih]
    simp only [List.mem_cons, Prod.ext_iff]
    constructor
    · rintro (⟨rfl, rfl⟩ | ⟨x, hx, rfl⟩)
      · exact ⟨m.2, Or.inl ⟨rfl, rfl⟩, rfl⟩
      · exact ⟨x, Or.inr hx, rfl⟩
    · rintro ⟨x, ⟨rfl, rfl⟩ | hx, rfl⟩
      · exact Or.inl ⟨rfl, rfl⟩
      · exact Or.inr ⟨x, hx, rfl⟩

theorem mem_simplifyMembers {o : List ℕ} {ms : List (String × Doc ν)} {m : String × Doc ν} (h : m ∈ ms) :
    (m.1, Go.simplifyIn o m.2) ∈ Go.simplifyMembers o ms := by
  induction ms with
  | nil => cases h
  | cons m' ms ih =>
    rw [Go.simplifyMembers]
    rcases List.mem_cons.1 h with rfl | h
    · exact List.mem_cons_self
    · exact List.mem_cons_of_mem _ (ih h)

/-- A member of a map is not the map reduced: the member would have such a member in turn. -/
theorem raw_ne_simplified {v : Doc ν} {k : String} {o : List ℕ} {ms : List (String × Doc ν)}
    (hv : (k, v) ∈ ms) (htree : v.IsTree o) :
    Ts.raw describe v ≠ .obj (Go.simplifyMembers o ms) := by
  induction v using Doc.induction generalizing o ms with
  | undefined | scalar | list | expr => simp [Ts.raw]
  | map id members ih =>
    intro heq
    rw [Ts.raw, Reduced.obj.injEq] at heq
    have hmem := mem_simplifyMembers (o := o) hv
    rw [← heq, Ts.mem_ownEntries, mem_rawMembers] at hmem
    obtain ⟨w, hw, hraw⟩ := hmem
    rw [Go.simplifyIn, if_neg htree.1] at hraw
    exact ih (k, w) hw hw (Doc.areMembers_iff.1 htree.2.2 _ hw) hraw

theorem filled_cons {x : Reduced ν} (h : x ≠ .undefined) (xs : List (Reduced ν)) :
    filled (x :: xs) = x :: filled xs := by
  cases x with
  | undefined => exact absurd rfl h
  | scalar | list | obj => rfl

theorem Doc.text_eq_some {v : Doc ν} {s : String} (h : v.text = some s) :
    v = .scalar (.str s) ∧ s ≠ "" := by
  unfold Doc.text at h
  split at h
  · split_ifs at h with hs
    cases h
    exact ⟨rfl, hs⟩
  · cases h

theorem Doc.src_eq_some {x v : Doc ν} (h : x.src = some v) :
    ∃ id ms, x = .map id ms ∧ ms.lookup "src" = some v := by
  cases x with
  | map id ms => exact ⟨id, ms, rfl, h⟩
  | undefined | scalar | list | expr => cases h

theorem Go.simplifyAll_cons {x : Doc ν} (h : x ≠ .undefined) (o : List ℕ) (xs : List (Doc ν)) :
    Go.simplifyAll o (x :: xs) = Go.simplifyIn o x :: Go.simplifyAll o xs := by
  cases x with
  | undefined => exact absurd rfl h
  | scalar | list | map | expr => rfl

theorem Rust.simplifyFilled_cons {x : Doc ν} (h : x ≠ .undefined) (r : List ℕ) (xs : List (Doc ν)) :
    Rust.simplifyFilled r (x :: xs) = Rust.simplifySeen r x :: Rust.simplifyFilled r xs := by
  cases x with
  | undefined => exact absurd rfl h
  | scalar | list | map | expr => rfl

theorem Doc.areTerms_cons {x : Doc ν} (h : x ≠ .undefined) (o : List ℕ) (xs : List (Doc ν)) :
    Doc.AreTerms o (x :: xs) ↔ x.IsTree o ∧ Doc.AreTerms o xs := by
  cases x with
  | undefined => exact absurd rfl h
  | scalar | list | map | expr => simp [Doc.AreTerms]

theorem Doc.IsTree.ne_undefined {x : Doc ν} {o : List ℕ} (h : x.IsTree o) : x ≠ .undefined := by
  rintro rfl
  exact h

/-- The elements of a list are terms that are all filled. -/
theorem Doc.areTerms_of_areTrees {o : List ℕ} {xs : List (Doc ν)} (h : Doc.AreTrees o xs) :
    Doc.AreTerms o xs := by
  induction xs with
  | nil => trivial
  | cons x xs ih => exact (Doc.areTerms_cons h.1.ne_undefined o xs).2 ⟨h.1, ih h.2⟩

theorem Rust.simplifyEach_eq {o r : List ℕ} {xs : List (Doc ν)} (h : Doc.AreTrees o xs) :
    Rust.simplifyEach r xs = Rust.simplifyFilled r xs := by
  induction xs with
  | nil => rfl
  | cons x xs ih => rw [Rust.simplifyEach, Rust.simplifyFilled_cons h.1.ne_undefined, ih h.2]

variable [Zero ν] [DecidableEq ν]

theorem reduce_ne_undefined {o : List ℕ} {t : Doc ν} (h : t.IsTree o) :
    Ts.reduce describe omap o t ≠ .undefined := by
  cases t with
  | undefined => exact absurd h id
  | scalar v => simp [Ts.reduce]
  | list id boxed xs => simp [Ts.reduce, h.1]
  | map id ms => simp [Ts.reduce, h.1]
  | expr id op terms => simp [Ts.reduce, h.1]

theorem raw_ne_undefined {v : Doc ν} (h : v.truthy = true) : Ts.raw describe v ≠ .undefined := by
  cases v with
  | undefined => cases h
  | scalar | list | map | expr => simp [Ts.raw]

/-- The three simplifiers give one value. -/
def Alike (describe : Op → List (String × Reduced ν))
    (omap : List (String × Reduced ν) → List (String × Reduced ν)) (o r : List ℕ) (t : Doc ν) : Prop :=
  Ts.reduce describe omap o t = Go.simplifyIn o t ∧ Go.simplifyIn o t = Rust.simplifySeen r t

/-- The three read a value alike exactly when it is agreeable, inside any containers. -/
def Settled (describe : Op → List (String × Reduced ν))
    (omap : List (String × Reduced ν) → List (String × Reduced ν)) (t : Doc ν) : Prop :=
  ∀ o r : List ℕ, t.IsTree o → r ⊆ o → (Alike describe omap o r t ↔ t.Agreeable)

/-- The terms of an operation. -/
theorem alike_terms {xs : List (Doc ν)} {o r : List ℕ} (ih : ∀ x ∈ xs, Settled describe omap x)
    (h : Doc.AreTerms o xs) (hr : r ⊆ o) :
    (filled (Ts.reduceAll describe omap o xs) = Go.simplifyAll o xs ∧
      Go.simplifyAll o xs = Rust.simplifyFilled r xs) ↔ Doc.AgreeableAll xs := by
  induction xs with
  | nil => simp [Ts.reduceAll, Go.simplifyAll, Rust.simplifyFilled, Doc.AgreeableAll, filled]
  | cons x xs ihxs =>
    rcases eq_or_ne x .undefined with rfl | hx
    · have := ihxs (fun y hy => ih y (List.mem_cons_of_mem _ hy)) h
      simpa [Ts.reduceAll, Ts.reduce, filled, Go.simplifyAll, Rust.simplifyFilled,
        Doc.AgreeableAll, Doc.Agreeable] using this
    · rw [Doc.areTerms_cons hx] at h
      have hhead := ih x List.mem_cons_self o r h.1 hr
      have htail := ihxs (fun y hy => ih y (List.mem_cons_of_mem _ hy)) h.2
      rw [Ts.reduceAll, filled_cons (reduce_ne_undefined h.1), Go.simplifyAll_cons hx,
        Rust.simplifyFilled_cons hx, List.cons.injEq, List.cons.injEq, Doc.AgreeableAll, ← hhead,
        ← htail, Alike]
      tauto

theorem alike_members {ms : List (String × Doc ν)} {o r : List ℕ}
    (ih : ∀ m ∈ ms, Settled describe omap m.2) (h : Doc.AreMembers o ms) (hr : r ⊆ o) :
    (Ts.reduceMembers describe omap o ms = Go.simplifyMembers o ms ∧
      Go.simplifyMembers o ms = Rust.simplifyMembers r ms) ↔ Doc.AgreeableMembers ms := by
  induction ms with
  | nil => simp [Ts.reduceMembers, Go.simplifyMembers, Rust.simplifyMembers, Doc.AgreeableMembers]
  | cons m ms ihms =>
    have hhead := ih m List.mem_cons_self o r h.1 hr
    have htail := ihms (fun y hy => ih y (List.mem_cons_of_mem _ hy)) h.2
    rw [Ts.reduceMembers, Go.simplifyMembers, Rust.simplifyMembers, List.cons.injEq,
      List.cons.injEq, Doc.AgreeableMembers, ← hhead, ← htail, Alike, Prod.mk.injEq, Prod.mk.injEq]
    tauto

theorem keys_reduceMembers (o : List ℕ) (ms : List (String × Doc ν)) :
    (Ts.reduceMembers describe omap o ms).map Prod.fst = ms.map Prod.fst := by
  induction ms with
  | nil => rfl
  | cons m ms ih => simp [Ts.reduceMembers, ih]

omit [Zero ν] [DecidableEq ν] in
theorem keys_simplifyMembers (o : List ℕ) (ms : List (String × Doc ν)) :
    (Go.simplifyMembers o ms).map Prod.fst = ms.map Prod.fst := by
  induction ms with
  | nil => rfl
  | cons m ms ih => simp [Go.simplifyMembers, ih]

omit [Zero ν] [DecidableEq ν] in
/-- An object has the entries of a map when these are in its order, and the same. -/
theorem ownEntries_eq_iff {ms ms' : List (String × Reduced ν)} (h : (ms.map Prod.fst).Nodup)
    (hkeys : ms.map Prod.fst = ms'.map Prod.fst) :
    Ts.ownEntries ms = ms' ↔ Ts.InOwnOrder (ms.map Prod.fst) ∧ ms = ms' := by
  constructor
  · intro heq
    have horder : Ts.InOwnOrder (ms.map Prod.fst) := by
      rw [Ts.InOwnOrder, ← Ts.map_fst_ownEntries, heq, hkeys]
    exact ⟨horder, (Ts.ownEntries_eq_self h horder).symm.trans heq⟩
  · rintro ⟨horder, rfl⟩
    exact Ts.ownEntries_eq_self h horder

/-- Three lists are one when their heads and their tails are. -/
theorem cons_alike_iff {β : Type*} {x y z : β} {xs ys zs : List β} {p q : Prop}
    (hhead : x = y ∧ y = z ↔ p) (htail : xs = ys ∧ ys = zs ↔ q) :
    x :: xs = y :: ys ∧ y :: ys = z :: zs ↔ p ∧ q := by
  rw [List.cons.injEq, List.cons.injEq, ← hhead, ← htail]
  tauto

/-- How the three read a list that is not empty. -/
theorem reduceList_cons {x : Doc ν} {o : List ℕ} (h : x.IsTree o) (xs : List (Doc ν)) :
    filled (Ts.reduceList describe omap o (x :: xs)) =
      ((x.src.filter Doc.truthy).elim (Ts.reduce describe omap o x) (Ts.raw describe)) ::
        filled (Ts.reduceAll describe omap o xs) := by
  rw [Ts.reduceList]
  cases hs : x.src.filter Doc.truthy with
  | none => exact filled_cons (reduce_ne_undefined h) _
  | some v => exact filled_cons (raw_ne_undefined (Option.filter_eq_some_iff.1 hs).2) _

omit [Zero ν] [DecidableEq ν] in
theorem simplifyList_cons {x : Doc ν} {o : List ℕ} (h : x.IsTree o) (xs : List (Doc ν)) :
    Go.simplifyList o (x :: xs) =
      ((x.src.bind Doc.text).elim (Go.simplifyIn o x) Reduced.str) :: Go.simplifyAll o xs := by
  rw [Go.simplifyList]
  · cases hs : x.src.bind Doc.text <;> rfl
  · exact h.ne_undefined

omit [Zero ν] [DecidableEq ν] in
theorem simplifySeen_list {x : Doc ν} {xs : List (Doc ν)} {o : List ℕ} (h : Doc.AreTrees o (x :: xs))
    (id : ℕ) (boxed : Bool) (r : List ℕ) :
    Rust.simplifySeen r (.list id boxed (x :: xs)) =
      .list (((if boxed then none else x.src.bind Doc.text).elim (Rust.simplifySeen r x) Reduced.str) ::
        Rust.simplifyFilled r xs) := by
  rw [← Rust.simplifyEach_eq h.2]
  cases boxed with
  | true => rfl
  | false =>
    cases hs : x.src.bind Doc.text with
    | some s => simp [Rust.simplifySeen, hs, Rust.simplifyEach_eq h.2]
    | none => simp [Rust.simplifySeen, hs]

/-- What leads a list is read alike exactly when a `src` that is true is a text, and the list plain. -/
theorem alike_head {x : Doc ν} {o r : List ℕ} (boxed : Bool) (ih : Settled describe omap x)
    (h : x.IsTree o) (hr : r ⊆ o) :
    ((x.src.filter Doc.truthy).elim (Ts.reduce describe omap o x) (Ts.raw describe) =
          (x.src.bind Doc.text).elim (Go.simplifyIn o x) Reduced.str ∧
        (x.src.bind Doc.text).elim (Go.simplifyIn o x) Reduced.str =
          (if boxed then none else x.src.bind Doc.text).elim (Rust.simplifySeen r x) Reduced.str) ↔
      Doc.LeadsAlike boxed x ∧ (x.src.bind Doc.text = none → x.Agreeable) := by
  have halike := ih o r h hr
  unfold Doc.LeadsAlike
  cases hsrc : x.src with
  | none => simpa [Alike] using halike
  | some v =>
    obtain ⟨id, ms, rfl, hv⟩ := Doc.src_eq_some hsrc
    cases htext : v.text with
    | some s =>
      obtain ⟨rfl, hs⟩ := Doc.text_eq_some htext
      cases boxed with
      | true => simp [Option.filter, htext, hs, Doc.truthy, Reduced.str, Rust.simplifySeen]
      | false => simp [Option.filter, htext, hs, Doc.truthy, Ts.raw, Reduced.str]
    | none =>
      cases htruthy : v.truthy with
      | true =>
        have htree : v.IsTree (id :: o) := Doc.areMembers_iff.1 h.2.2 _ (mem_of_lookup hv)
        have hne : Ts.raw describe v ≠ .obj (Go.simplifyMembers (id :: o) ms) :=
          raw_ne_simplified (mem_of_lookup hv) htree
        simp [Option.filter, htext, htruthy, Go.simplifyIn, h.1, hne]
      | false => simpa [Option.filter, htext, htruthy, Alike] using halike

/-- On a tree the three simplifiers give one value exactly when it is agreeable. -/
theorem settled
    (homap : ∀ ms : List (String × Reduced ν), (ms.map Prod.fst).Nodup → omap ms = Ts.ownEntries ms)
    (t : Doc ν) : Settled describe omap t := by
  induction t using Doc.induction with
  | undefined => exact fun o r h => absurd h id
  | scalar v => exact fun o r _ _ => by simp [Alike, Ts.reduce, Go.simplifyIn, Rust.simplifySeen,
      Doc.Agreeable]
  | list id boxed xs ih =>
    intro o r h hr
    cases xs with
    | nil =>
      cases boxed <;>
      simp [Alike, Ts.reduce, Ts.reduceList, filled, Go.simplifyIn, Rust.simplifySeen,
        Rust.simplifyEach, Doc.Agreeable, Doc.AgreeableList, h.1]
    | cons x xs =>
      have hr' : r ⊆ id :: o := fun i hi => List.mem_cons_of_mem id (hr hi)
      have hhead := alike_head boxed (ih x List.mem_cons_self) h.2.1 hr'
      have htail := alike_terms (fun y hy => ih y (List.mem_cons_of_mem x hy))
        (Doc.areTerms_of_areTrees h.2.2) hr'
      have := cons_alike_iff hhead htail
      rw [Alike, Ts.reduce, if_neg h.1, reduceList_cons h.2.1, simplifySeen_list h.2, Doc.Agreeable,
        Doc.AgreeableList, ← and_assoc, ← this]
      simp [Go.simplifyIn, h.1, simplifyList_cons h.2.1]
  | map id ms ih =>
    intro o r h hr
    have hr' : r ⊆ id :: o := fun i hi => List.mem_cons_of_mem id (hr hi)
    have := alike_members ih h.2.2 hr'
    have hkeys : (Ts.reduceMembers describe omap (id :: o) ms).map Prod.fst = ms.map Prod.fst :=
      keys_reduceMembers (id :: o) ms
    have hentries : omap (Ts.reduceMembers describe omap (id :: o) ms) = Go.simplifyMembers (id :: o) ms ↔
        Ts.InOwnOrder (ms.map Prod.fst) ∧
          Ts.reduceMembers describe omap (id :: o) ms = Go.simplifyMembers (id :: o) ms := by
      rw [homap _ (by rw [hkeys]; exact h.2.1), ← hkeys]
      exact ownEntries_eq_iff (by rw [hkeys]; exact h.2.1) (hkeys.trans (keys_simplifyMembers _ ms).symm)
    rw [Alike, Ts.reduce, if_neg h.1, Go.simplifyIn, if_neg h.1, Rust.simplifySeen, Reduced.obj.injEq,
      Reduced.obj.injEq, Doc.Agreeable, hentries, and_assoc, this]
  | expr id op terms ih =>
    intro o r h hr
    have hr' : id :: r ⊆ id :: o := List.cons_subset_cons id hr
    have hid : id ∉ r := fun hi => h.1 (hr hi)
    have := alike_terms ih h.2 hr'
    by_cases hop : op.src = ""
    · simp [Alike, Ts.reduce, Go.simplifyIn, Rust.simplifySeen, Doc.Agreeable, h.1, hop, filled,
        Reduced.str]
    · simpa [Alike, Ts.reduce, Go.simplifyIn, Rust.simplifySeen, Doc.Agreeable, h.1, hid, hop, filled,
        Reduced.str] using this

/-- On a tree the three simplifiers give one value exactly when it is agreeable; `omap` builds the
object of the entries it is given. -/
theorem simplifiers_agree_iff
    (homap : ∀ ms : List (String × Reduced ν), (ms.map Prod.fst).Nodup → omap ms = Ts.ownEntries ms)
    {t : Doc ν}
    (ht : t.IsTree []) :
    Ts.simplify describe omap t = Go.simplifyOrdered t ∧ Go.simplifyOrdered t = Rust.simplify t ↔
      t.Agreeable :=
  settled homap t [] [] ht (List.Subset.refl [])

end Agreement

/-- `1+2` beside a map. -/
def sumAndMap : Doc ℕ :=
  .list 0 false
    [.expr 1 ⟨"addition", "+", .infixOp, 2000000, 2100000⟩
      [.scalar (.num (.finite false 1)), .scalar (.num (.finite false 2))],
      .map 2 [("src", .scalar (.str "x"))]]

theorem simplifiers_agree_sumAndMap :
    Ts.simplify (fun _ => []) Ts.ownEntries sumAndMap = Go.simplifyOrdered sumAndMap ∧
      Go.simplifyOrdered sumAndMap = Rust.simplify sumAndMap ↔ sumAndMap.Agreeable :=
  simplifiers_agree_iff (fun _ _ => rfl)
    (by simp [sumAndMap, Doc.IsTree, Doc.AreTrees, Doc.AreTerms, Doc.AreMembers])

/-- `[{src:1},2]`: a map with a number for its `src` leads a list. -/
def numberSource : Doc ℕ :=
  .list 0 false
    [.map 1 [("src", .scalar (.num (.finite false 1)))], .scalar (.num (.finite false 2))]

/-- TypeScript puts the number in the place of the map, the other two reduce the map. -/
theorem simplifiers_differ :
    Ts.simplify (fun _ => []) Ts.ownEntries numberSource ≠ Go.simplifyOrdered numberSource ∧
      Ts.simplify (fun _ => []) Ts.ownEntries numberSource ≠ Rust.simplify numberSource := by
  have hts : Ts.simplify (fun _ => []) Ts.ownEntries numberSource =
      .list [.scalar (.num (.finite false 1)), .scalar (.num (.finite false 2))] := rfl
  have hgo : Go.simplifyOrdered numberSource =
      .list [.obj [("src", .scalar (.num (.finite false 1)))],
        .scalar (.num (.finite false 2))] := rfl
  have hrust : Rust.simplify numberSource = Go.simplifyOrdered numberSource := rfl
  rw [hrust, hts, hgo]
  simp

end TabnasExpr

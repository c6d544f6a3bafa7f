import TabnasExpr.Lib.Walk
import TabnasExpr.Op

/-!
# The check before `Simplify` in the C library

`Simplify` of the Go port keeps no account of where it is, so a value that holds itself sends it down
forever.  The C library looks for such a value first: `cyclic` walks the boxes, slices and ordered
maps of a parse, remembers the ones it is inside of, and a parse it answers true for is handed on as
it is.
-/

namespace TabnasExpr.Go

open Walk Relation

universe u

variable {α : Type u}

/-- A slice: its backing array, where in it the slice starts, and its length. -/
@[ext]
structure Slice where
  array : ℕ
  offset : ℕ
  len : ℕ
  deriving DecidableEq

/-- A Go value.  Boxes, maps and backing arrays are shared by reference. -/
inductive Any (α : Type u) where
  | nil
  | scalar (v : α)
  | op (op : Op)
  | unfilled
  | listRef (p : Option ℕ)
  | slice (s : Slice)
  | orderedMap (p : Option ℕ)
  | map (p : ℕ)
  deriving DecidableEq

def Any.isUnfilled : Any α → Bool
  | .unfilled => true
  | _ => false

/-- An ordered map: its keys in order, and the value of each. -/
structure OrderedMap (α : Type u) where
  keys : List String
  vals : List (String × Any α)

/-- `m.Vals[k]`. -/
def OrderedMap.val (m : OrderedMap α) (k : String) : Any α := (m.vals.lookup k).getD .nil

/-- What the references of a value point to. -/
structure Graph (α : Type u) where
  boxes : List Slice
  arrays : List (List (Any α))
  orderedMaps : List (OrderedMap α)
  maps : List (List (String × Any α))

namespace Graph

variable (g : Graph α)

/-- The slice in a box (`v.Val`). -/
def box (p : ℕ) : Slice := g.boxes[p]?.getD ⟨0, 0, 0⟩

/-- The elements of a slice. -/
def elements (s : Slice) : List (Any α) := ((g.arrays[s.array]?.getD []).drop s.offset).take s.len

def orderedMap (p : ℕ) : OrderedMap α := g.orderedMaps[p]?.getD ⟨[], []⟩

def map (p : ℕ) : List (String × Any α) := g.maps[p]?.getD []

/-- Every value a container of the graph holds. -/
def values : List (Any α) :=
  .nil :: g.arrays.flatten ++ (g.orderedMaps.flatMap OrderedMap.vals ++ g.maps.flatten).map Prod.snd

end Graph

variable (g : Graph α)

/-! ## The walk of the check -/

/-- What a container is remembered by: its address, for a slice that of its first element. -/
inductive Key where
  | listRef (p : ℕ)
  | element (array offset : ℕ)
  | orderedMap (p : ℕ)
  deriving DecidableEq

/-- The key and the members of a container the check looks into. -/
def watched : Any α → Option (Key × List (Any α))
  | .listRef (some p) => some (.listRef p, g.elements (g.box p))
  | .slice s => if g.elements s = [] then none else some (.element s.array s.offset, g.elements s)
  | .orderedMap (some p) => some (.orderedMap p, (g.orderedMap p).keys.map (g.orderedMap p).val)
  | _ => none

/-- The loop of `cyclic` over the members of a container. -/
def anyCyclic (cyclic : Any α → Finset Key → Option (Bool × Finset Key)) :
    List (Any α) → Finset Key → Option (Bool × Finset Key)
  | [], on => some (false, on)
  | c :: kids, on => do
    let (found, on) ← cyclic c on
    if found then some (true, on) else anyCyclic cyclic kids on

/-- The check, with the containers the walk is inside of. -/
def cyclic : ℕ → Any α → Finset Key → Option (Bool × Finset Key)
  | 0, _, _ => none
  | fuel + 1, n, on =>
    match watched g n with
    | none => some (false, on)
    | some (key, kids) =>
      if key ∈ on then some (true, on)
      else do
        let (found, on) ← anyCyclic (cyclic fuel) kids (insert key on)
        some (found, on.erase key)

/-! ## The walk of `Simplify` -/

/-- A value `Simplify` makes. -/
inductive Simplified (α : Type u) where
  | nil
  | scalar (v : α)
  | op (op : Op)
  | unfilled
  | list (xs : List (Simplified α))
  | map (ms : List (String × Simplified α))

/-- A term that comes out as nothing is left out (`if s != nil`). -/
def Simplified.keep : Simplified α → List (Simplified α)
  | .nil => []
  | s => [s]

/-- The terms of an operation, without those that are unfilled or come out as nothing. -/
def simplifyTerms (simplify : Any α → Option (Simplified α)) :
    List (Any α) → Option (List (Simplified α))
  | [] => some []
  | .unfilled :: els => simplifyTerms simplify els
  | el :: els => do
    let s ← simplify el
    let rest ← simplifyTerms simplify els
    some (s.keep ++ rest)

/-- `Simplify`; the source text of an operator is left to `src`. -/
def simplify (src : Op → α) : ℕ → Any α → Option (Simplified α)
  | 0, _ => none
  | fuel + 1, node =>
    match node with
    | .listRef none => some .nil
    | .listRef (some p) => simplify src fuel (.slice (g.box p))
    | .slice s =>
      match g.elements s with
      | [] => some (.list [])
      | .op op :: els =>
        (simplifyTerms (simplify src fuel) els).map fun ts => .list (.scalar (src op) :: ts)
      | els => (els.mapM (simplify src fuel)).map .list
    | .orderedMap none => some .nil
    | .orderedMap (some p) =>
      ((g.orderedMap p).keys.mapM fun k =>
        (simplify src fuel ((g.orderedMap p).val k)).map (k, ·)).map .map
    | .map p => ((g.map p).mapM fun m => (simplify src fuel m.2).map (m.1, ·)).map .map
    | .nil => some .nil
    | .scalar v => some (.scalar v)
    | .op op => some (.op op)
    | .unfilled => some .unfilled

/-- `Simplify` comes to an end on a value. -/
def Terminates (src : Op → α) (v : Any α) : Prop := ∃ fuel, simplify g src fuel v ≠ none

/-! ## What the two walks see -/

/-- The values a container holds. -/
def contents : Any α → List (Any α)
  | .listRef (some p) => g.elements (g.box p)
  | .slice s => g.elements s
  | .orderedMap (some p) => (g.orderedMap p).keys.map (g.orderedMap p).val
  | .map p => (g.map p).map Prod.snd
  | _ => []

/-- The values `Simplify` calls itself with. -/
def calls : Any α → List (Any α)
  | .listRef (some p) => [.slice (g.box p)]
  | .slice s =>
    match g.elements s with
    | .op _ :: els => els.filter fun el => !el.isUnfilled
    | els => els
  | .orderedMap (some p) => (g.orderedMap p).keys.map (g.orderedMap p).val
  | .map p => (g.map p).map Prod.snd
  | _ => []

/-- The key the check gives a value. -/
def watchedKey (v : Any α) : Option Key := (watched g v).map Prod.fst

/-- The values the check calls itself with. -/
def watchedKids (v : Any α) : List (Any α) := ((watched g v).map Prod.snd).getD []

theorem mem_flatten_of_mem_getD {β : Type*} {l : List (List β)} {i : ℕ} {x : β}
    (h : x ∈ l[i]?.getD []) : x ∈ l.flatten := by
  cases hi : l[i]? with
  | none => simp [hi] at h
  | some a => exact List.mem_flatten_of_mem (List.mem_of_getElem? hi) (by simpa [hi] using h)

theorem mem_values_of_mem_elements {s : Slice} {v : Any α} (h : v ∈ g.elements s) : v ∈ g.values := by
  have := mem_flatten_of_mem_getD (List.mem_of_mem_drop (List.mem_of_mem_take h))
  simp [Graph.values, this]

theorem mem_values_of_val (p : ℕ) (k : String) : (g.orderedMap p).val k ∈ g.values := by
  unfold OrderedMap.val Graph.orderedMap
  cases hp : g.orderedMaps[p]? with
  | none => simp [Graph.values]
  | some m =>
    cases hk : m.vals.lookup k with
    | none => simp [Graph.values, hk]
    | some v =>
      obtain ⟨l₁, l₂, hl, -⟩ := List.lookup_eq_some_iff.1 hk
      have hv : (k, v) ∈ g.orderedMaps.flatMap OrderedMap.vals :=
        List.mem_flatMap.2 ⟨m, List.mem_of_getElem? hp, by simp [hl]⟩
      have : v ∈ (g.orderedMaps.flatMap OrderedMap.vals ++ g.maps.flatten).map Prod.snd :=
        List.mem_map.2 ⟨(k, v), List.mem_append_left _ hv, rfl⟩
      exact List.mem_append_right _ (by simpa [hk] using this)

theorem mem_values_of_mem_map {p : ℕ} {m : String × Any α} (h : m ∈ g.map p) : m.2 ∈ g.values := by
  have hm := mem_flatten_of_mem_getD h
  exact List.mem_append_right _ (List.mem_map_of_mem (List.mem_append_right _ hm))

theorem mem_values_of_mem_contents {v w : Any α} (h : w ∈ contents g v) : w ∈ g.values := by
  unfold contents at h
  split at h
  · exact mem_values_of_mem_elements g h
  · exact mem_values_of_mem_elements g h
  · obtain ⟨k, -, rfl⟩ := List.mem_map.1 h
    exact mem_values_of_val g _ k
  · obtain ⟨m, hm, rfl⟩ := List.mem_map.1 h
    exact mem_values_of_mem_map g hm
  · simp at h

/-- What can be reached from a value is that value or stands in the graph. -/
theorem closed_contents (v : Any α) : Closed (contents g) (v :: g.values) :=
  fun _ _ _ hc => List.mem_cons_of_mem v (mem_values_of_mem_contents g hc)

theorem mem_contents_of_mem_watchedKids {v w : Any α} (h : w ∈ watchedKids g v) : w ∈ contents g v := by
  unfold watchedKids watched at h
  split at h
  · exact h
  · split at h
    · simp at h
    · exact h
  · exact h
  · simp at h

theorem keyed_watched : Keyed (watchedKids g) (watchedKey g) := by
  intro v w hw hv
  have hnone : watched g v = none := by simpa [watchedKey] using hv
  simp [watchedKids, hnone] at hw

/-! ## `Simplify` comes to an end where nothing holds itself -/

variable {g}

theorem mapM_ne_none {β γ : Type*} {f : β → Option γ} (l : List β) :
    l.mapM f ≠ none ↔ ∀ x ∈ l, f x ≠ none := by
  induction l with
  | nil => simp
  | cons x l ih =>
    cases hx : f x with
    | none => simp [hx]
    | some y =>
      cases hl : l.mapM f with
      | none =>
        have : ¬ ∀ x ∈ l, f x ≠ none := fun h => ih.2 h hl
        simpa [hx, hl] using this
      | some ys =>
        have : ∀ x ∈ l, f x ≠ none := ih.1 (by simp [hl])
        simpa [hx, hl] using this

theorem simplifyTerms_cons {f : Any α → Option (Simplified α)} {el : Any α} {els : List (Any α)}
    {s : Simplified α} (hu : el ≠ .unfilled) (hs : f el = some s) :
    simplifyTerms f (el :: els) = (simplifyTerms f els).map fun rest => s.keep ++ rest := by
  rw [simplifyTerms]
  · rw [hs]
    cases simplifyTerms f els <;> rfl
  · exact hu

theorem simplifyTerms_ne_none {f : Any α → Option (Simplified α)} (els : List (Any α)) :
    simplifyTerms f els ≠ none ↔ ∀ el ∈ els.filter (fun el => !el.isUnfilled), f el ≠ none := by
  induction els with
  | nil => simp [simplifyTerms]
  | cons el els ih =>
    by_cases hu : el = .unfilled
    · subst hu
      simpa [simplifyTerms, Any.isUnfilled] using ih
    · have hf : el.isUnfilled = false := by cases el <;> simp [Any.isUnfilled] at hu ⊢
      cases hs : f el with
      | none => simp [simplifyTerms, hs, hf]
      | some s =>
        rw [simplifyTerms_cons hu hs, Ne, Option.map_eq_none_iff]
        simpa [hs, hf] using ih

theorem simplify_succ (src : Op → α) (fuel : ℕ) (v : Any α) :
    simplify g src (fuel + 1) v ≠ none ↔ ∀ c ∈ calls g v, simplify g src fuel c ≠ none := by
  cases v with
  | listRef p =>
    cases p with
    | none => simp [simplify, calls]
    | some p => simp [simplify, calls]
  | slice s =>
    cases he : g.elements s with
    | nil => simp [simplify, calls, he]
    | cons el els =>
      cases el with
      | op op => simpa [simplify, calls, he] using simplifyTerms_ne_none els
      | _ => simpa [simplify, calls, he] using mapM_ne_none (g.elements s)
  | orderedMap p =>
    cases p with
    | none => simp [simplify, calls]
    | some p => simp [simplify, calls, mapM_ne_none]
  | map p =>
    simp only [simplify, calls, ne_eq, Option.map_eq_none_iff, List.forall_mem_map]
    exact (mapM_ne_none _).trans (by simp)
  | _ => simp [simplify, calls]

/-- `Simplify` calls itself with what a value holds, or with the slice of a box. -/
theorem mem_contents_of_mem_calls {v w : Any α} (h : w ∈ calls g v) :
    w ∈ contents g v ∨ ∃ p, v = .listRef (some p) ∧ w = .slice (g.box p) := by
  cases v with
  | listRef p =>
    cases p with
    | none => simp [calls] at h
    | some p => exact .inr ⟨p, rfl, by simpa [calls] using h⟩
  | slice s =>
    left
    simp only [calls] at h
    simp only [contents]
    split at h
    next he =>
      rw [he]
      exact List.mem_cons_of_mem _ (List.mem_of_mem_filter h)
    next => exact h
  | orderedMap p => cases p <;> exact .inl h
  | _ => exact .inl h

/-- What `Simplify` does not call itself with holds nothing. -/
theorem contents_of_not_call {s : Slice} {w : Any α} (h : w ∈ g.elements s)
    (hc : w ∉ calls g (.slice s)) : contents g w = [] := by
  simp only [calls] at hc
  split at hc
  next he =>
    rw [he] at h
    rcases List.mem_cons.1 h with rfl | h
    · rfl
    · cases w <;> simp [contents, List.mem_filter, h, Any.isUnfilled] at hc ⊢
  next => exact absurd h hc

theorem acc_calls_iff (v : Any α) :
    Acc (fun b a => Holds (calls g) a b) v ↔ Acc (fun b a => Holds (contents g) a b) v := by
  constructor
  · intro h
    induction h with
    | intro v h ih =>
      cases v with
      | listRef p =>
        cases p with
        | none => exact ⟨_, fun w hw => by simp [Holds, contents] at hw⟩
        | some p => exact ⟨_, fun w hw => (ih (.slice (g.box p)) (by simp [Holds, calls])).inv hw⟩
      | slice s =>
        refine ⟨_, fun w hw => ?_⟩
        by_cases hc : w ∈ calls g (.slice s)
        · exact ih w hc
        · exact ⟨_, fun x hx => by simp [Holds, contents_of_not_call hw hc] at hx⟩
      | orderedMap p => cases p <;> exact ⟨_, ih⟩
      | _ => exact ⟨_, ih⟩
  · intro h
    induction h with
    | intro v _ ih =>
      refine ⟨_, fun w hw => ?_⟩
      rcases mem_contents_of_mem_calls hw with hw | ⟨p, rfl, rfl⟩
      · exact ih w hw
      · refine ⟨_, fun x hx => ih x ?_⟩
        rcases mem_contents_of_mem_calls hx with hx | ⟨p, h, -⟩
        · exact hx
        · cases h

/-- `Simplify` comes to an end exactly where no container at or below the value holds itself. -/
theorem terminates_iff (src : Op → α) (v : Any α) : Terminates g src v ↔ ¬ Loop (contents g) v := by
  rw [← acc_iff_not_loop (closed_contents g v) List.mem_cons_self, ← acc_calls_iff]
  exact exists_fuel_iff_acc (fun fuel v => simplify g src fuel v ≠ none) (fun _ h => h rfl)
    (simplify_succ src)

/-! ## The check finds the containers that come twice -/

theorem anyCyclic_spec {fuel : ℕ} {kids : List (Any α)} {on on' : Finset Key} {b : Bool}
    (ih : ∀ v on on' b, cyclic g fuel v on = some (b, on') →
      on' = on ∧ (b = true ↔ Found (watchedKids g) (watchedKey g) on v))
    (h : anyCyclic (cyclic g fuel) kids on = some (b, on')) :
    on' = on ∧ (b = true ↔ ∃ c ∈ kids, Found (watchedKids g) (watchedKey g) on c) := by
  induction kids with
  | nil =>
    obtain ⟨rfl, rfl⟩ : false = b ∧ on = on' := by simpa [anyCyclic] using h
    simp
  | cons c kids ihk =>
    cases hc : cyclic g fuel c on with
    | none => simp [anyCyclic, hc] at h
    | some r =>
      obtain ⟨found, on₁⟩ := r
      obtain ⟨rfl, hfound⟩ := ih c on on₁ found hc
      cases found with
      | true =>
        obtain ⟨rfl, rfl⟩ : true = b ∧ on₁ = on' := by simpa [anyCyclic, hc] using h
        simpa using .inl (hfound.1 rfl)
      | false =>
        have hnot : ¬ Found (watchedKids g) (watchedKey g) on₁ c := fun hf => by simpa using hfound.2 hf
        have hrest : anyCyclic (cyclic g fuel) kids on₁ = some (b, on') := by
          simpa [anyCyclic, hc] using h
        simpa [hnot] using ihk hrest

/-- The check leaves the containers it is inside of as they were, and answers whether the walk comes to
one of them, or to one twice. -/
theorem cyclic_spec {fuel : ℕ} {v : Any α} {on on' : Finset Key} {b : Bool}
    (h : cyclic g fuel v on = some (b, on')) :
    on' = on ∧ (b = true ↔ Found (watchedKids g) (watchedKey g) on v) := by
  induction fuel generalizing v on on' b with
  | zero => simp [cyclic] at h
  | succ fuel ih =>
    unfold cyclic at h
    cases hw : watched g v with
    | none =>
      obtain ⟨rfl, rfl⟩ : false = b ∧ on = on' := by simpa [hw] using h
      have hk : watchedKey g v = none := by simp [watchedKey, hw]
      have hnot : ¬ Found (watchedKids g) (watchedKey g) on v := by
        intro hf
        cases hf with
        | here _ _ _ hk' => simp [hk] at hk'
        | deeper _ _ _ _ hk' => simp [hk] at hk'
      simp [hnot]
    | some kk =>
      obtain ⟨k, kids⟩ := kk
      have hk : watchedKey g v = some k := by simp [watchedKey, hw]
      have hkids : watchedKids g v = kids := by simp [watchedKids, hw]
      by_cases hon : k ∈ on
      · obtain ⟨rfl, rfl⟩ : true = b ∧ on = on' := by simpa [hw, hon] using h
        simpa using Found.here _ _ _ hk hon
      · cases ha : anyCyclic (cyclic g fuel) kids (insert k on) with
        | none => simp [hw, hon, ha] at h
        | some r =>
          obtain ⟨found, on₁⟩ := r
          obtain ⟨rfl, rfl⟩ : found = b ∧ on₁.erase k = on' := by simpa [hw, hon, ha] using h
          obtain ⟨rfl, hfound⟩ := anyCyclic_spec (fun v on on' b h => ih h) ha
          refine ⟨Finset.erase_insert hon, hfound.trans ⟨?_, ?_⟩⟩
          · rintro ⟨c, hc, hf⟩
            exact .deeper _ _ _ _ hk hon (hkids ▸ hc) hf
          · intro hf
            cases hf with
            | here _ _ k' hk' hon' =>
              obtain rfl : k = k' := Option.some.inj (hk.symm.trans hk')
              exact absurd hon' hon
            | deeper _ _ k' c hk' _ hc hf =>
              obtain rfl : k = k' := Option.some.inj (hk.symm.trans hk')
              exact ⟨c, hkids ▸ hc, hf⟩

theorem anyCyclic_ne_none {fuel : ℕ} {kids : List (Any α)} {on : Finset Key}
    (h : ∀ c ∈ kids, cyclic g fuel c on ≠ none) : anyCyclic (cyclic g fuel) kids on ≠ none := by
  induction kids with
  | nil => simp [anyCyclic]
  | cons c kids ih =>
    obtain ⟨⟨found, on₁⟩, hc⟩ := Option.ne_none_iff_exists'.1 (h c List.mem_cons_self)
    obtain ⟨rfl, -⟩ := cyclic_spec hc
    have := ih fun d hd => h d (List.mem_cons_of_mem c hd)
    cases found <;> simp [anyCyclic, hc, this]

/-- The keys the walk can come to. -/
def keysOf (g : Graph α) (W : List (Any α)) : Finset Key := (W.filterMap (watchedKey g)).toFinset

/-- The check comes to an end: on each level it is inside of one container more. -/
theorem cyclic_ne_none {W : List (Any α)} (hW : Closed (contents g) W) {fuel : ℕ} {v : Any α}
    {on : Finset Key} (hv : v ∈ W) (hfuel : (keysOf g W \ on).card < fuel) :
    cyclic g fuel v on ≠ none := by
  induction fuel generalizing v on with
  | zero => simp at hfuel
  | succ fuel ih =>
    unfold cyclic
    cases hw : watched g v with
    | none => simp
    | some kk =>
      obtain ⟨k, kids⟩ := kk
      by_cases hon : k ∈ on
      · simp [hon]
      · have hk : k ∈ keysOf g W \ on := by
          have : k ∈ keysOf g W :=
            List.mem_toFinset.2 (List.mem_filterMap.2 ⟨v, hv, by simp [watchedKey, hw]⟩)
          exact Finset.mem_sdiff.2 ⟨this, hon⟩
        have hlt : (keysOf g W \ insert k on).card < (keysOf g W \ on).card := by
          rw [Finset.sdiff_insert]
          exact Finset.card_erase_lt_of_mem hk
        have hkids : ∀ c ∈ kids, cyclic g fuel c (insert k on) ≠ none := fun c hc =>
          ih (hW v hv c (mem_contents_of_mem_watchedKids g (by simpa [watchedKids, hw] using hc)))
            (by omega)
        obtain ⟨⟨found, on₁⟩, ha⟩ := Option.ne_none_iff_exists'.1 (anyCyclic_ne_none hkids)
        simp [hon, ha]

/-! ## What the check is right about -/

variable (g) in
/-- Where the check looks, a slice holds at some depth another length of the slice that starts at its
first element. -/
def Overlaps (v : Any α) : Prop :=
  ∃ s t : Slice, Reaches (watchedKids g) v (.slice s) ∧ Below (watchedKids g) (.slice s) (.slice t) ∧
    s.array = t.array ∧ s.offset = t.offset ∧ s.len ≠ t.len ∧ g.elements t ≠ []

theorem watchedKey_slice {s : Slice} (h : g.elements s ≠ []) :
    watchedKey g (.slice s) = some (.element s.array s.offset) := by
  simp [watchedKey, watched, h]

theorem watchedKey_eq {v : Any α} {k : Key} (h : watchedKey g v = some k) :
    (∃ p, v = .listRef (some p) ∧ k = .listRef p) ∨
    (∃ s, v = .slice s ∧ g.elements s ≠ [] ∧ k = .element s.array s.offset) ∨
    ∃ p, v = .orderedMap (some p) ∧ k = .orderedMap p := by
  cases v with
  | listRef p =>
    cases p with
    | none => simp [watchedKey, watched] at h
    | some p => exact .inl ⟨p, rfl, by simpa [watchedKey, watched] using h.symm⟩
  | slice s =>
    by_cases he : g.elements s = []
    · simp [watchedKey, watched, he] at h
    · exact .inr (.inl ⟨s, rfl, he, Option.some.inj (h.symm.trans (watchedKey_slice he))⟩)
  | orderedMap p =>
    cases p with
    | none => simp [watchedKey, watched] at h
    | some p => exact .inr (.inr ⟨p, rfl, by simpa [watchedKey, watched] using h.symm⟩)
  | _ => simp [watchedKey, watched] at h

theorem repeats_iff (v : Any α) :
    Repeats (watchedKids g) (watchedKey g) v ↔ Loop (watchedKids g) v ∨ Overlaps g v := by
  constructor
  · rintro ⟨b, c, k, hvb, hbc, hb, hc⟩
    by_cases heq : b = c
    · exact .inl ⟨b, hvb, heq ▸ hbc⟩
    · right
      rcases watchedKey_eq hb with ⟨p, rfl, rfl⟩ | ⟨s, rfl, -, rfl⟩ | ⟨p, rfl, rfl⟩
      · rcases watchedKey_eq hc with ⟨q, rfl, h⟩ | ⟨t, rfl, ht, h⟩ | ⟨q, rfl, h⟩ <;> cases h
        exact absurd rfl heq
      · rcases watchedKey_eq hc with ⟨q, rfl, h⟩ | ⟨t, rfl, ht, h⟩ | ⟨q, rfl, h⟩
        · cases h
        · obtain ⟨ha, ho⟩ := Key.element.inj h
          exact ⟨s, t, hvb, hbc, ha, ho, fun hl => heq (by rw [Slice.ext ha ho hl]), ht⟩
        · cases h
      · rcases watchedKey_eq hc with ⟨q, rfl, h⟩ | ⟨t, rfl, ht, h⟩ | ⟨q, rfl, h⟩ <;> cases h
        exact absurd rfl heq
  · rintro (⟨b, hvb, hbb⟩ | ⟨s, t, hvs, hst, ha, ho, -, ht⟩)
    · obtain ⟨c, hbc, -⟩ := TransGen.head'_iff.1 hbb
      obtain ⟨k, hk⟩ := Option.ne_none_iff_exists'.1 (keyed_watched g b c hbc)
      exact ⟨b, b, k, hvb, hbb, hk, hk⟩
    · obtain ⟨c, hsc, -⟩ := TransGen.head'_iff.1 hst
      have hs : g.elements s ≠ [] := by
        intro he
        simp [Holds, watchedKids, watched, he] at hsc
      refine ⟨_, _, _, hvs, hst, watchedKey_slice hs, ?_⟩
      rw [watchedKey_slice ht, ha, ho]

variable (g) in
/-- The check answers; where it answers false `Simplify` comes to an end, and it answers true only where
some container holds itself. -/
def Guards (src : Op → α) (v : Any α) : Prop :=
  ∃ fuel b, cyclic g fuel v ∅ = some (b, ∅) ∧ (b = false → Terminates g src v) ∧
    (b = true → Loop (contents g) v)

theorem exists_cyclic (v : Any α) : ∃ fuel b, cyclic g fuel v ∅ = some (b, ∅) ∧
    (b = true ↔ Loop (watchedKids g) v ∨ Overlaps g v) := by
  have hne : cyclic g ((keysOf g (v :: g.values) \ ∅).card + 1) v ∅ ≠ none :=
    cyclic_ne_none (closed_contents g v) List.mem_cons_self (Nat.lt_succ_self _)
  obtain ⟨⟨b, on⟩, h⟩ := Option.ne_none_iff_exists'.1 hne
  obtain ⟨rfl, hb⟩ := cyclic_spec h
  exact ⟨_, b, h, hb.trans ((found_iff_repeats (keyed_watched g)).trans (repeats_iff v))⟩

/-- The check keeps `Simplify` from an endless recursion, and refuses nothing else, exactly when every
container that holds itself shows to a walk that passes plain maps by, or a slice that holds a different
length of itself is on the way; and such a slice stands only where some container does hold itself. -/
theorem guards_iff (src : Op → α) (v : Any α) :
    Guards g src v ↔ (Loop (contents g) v → Loop (watchedKids g) v ∨ Overlaps g v) ∧
      (Overlaps g v → Loop (contents g) v) := by
  obtain ⟨fuel, b, hc, hb⟩ := exists_cyclic (g := g) v
  have hsub : Loop (watchedKids g) v → Loop (contents g) v :=
    Loop.mono fun a b => mem_contents_of_mem_watchedKids g
  constructor
  · rintro ⟨fuel', b', hc', hfalse, htrue⟩
    have hb' := (cyclic_spec hc').2.trans ((found_iff_repeats (keyed_watched g)).trans (repeats_iff v))
    cases b' with
    | false =>
      have hl := (terminates_iff src v).1 (hfalse rfl)
      exact ⟨fun h => absurd h hl, fun h => by simpa using hb'.2 (.inr h)⟩
    | true => exact ⟨fun _ => hb'.1 rfl, fun _ => htrue rfl⟩
  · rintro ⟨hseen, hoverlap⟩
    refine ⟨fuel, b, hc, ?_, ?_⟩
    · rintro rfl
      exact (terminates_iff src v).2 fun h => by simpa using hb.2 (hseen h)
    · rintro rfl
      exact (hb.1 rfl).elim hsub hoverlap

/-! ## Two values it is wrong about -/

/-- A plain map that holds itself. -/
def selfMap : Graph String := ⟨[], [], [], [[("a", .map 0)]]⟩

/-- The check answers false for a plain map that holds itself, and `Simplify` does not come to an end
on it. -/
theorem selfMap_not_guarded :
    cyclic selfMap 1 (.map 0) ∅ = some (false, ∅) ∧ ¬ Terminates selfMap Op.src (.map 0) ∧
      ¬ Guards selfMap Op.src (.map 0) := by
  have hloop : Loop (contents selfMap) (.map 0) :=
    ⟨.map 0, .refl, .single (by simp [Holds, contents, selfMap, Graph.map])⟩
  have hnot : ¬ Terminates selfMap Op.src (.map 0) := fun h => (terminates_iff Op.src _).1 h hloop
  have hfalse : cyclic selfMap 1 (.map 0) ∅ = some (false, ∅) := by decide
  refine ⟨hfalse, hnot, ?_⟩
  rintro ⟨fuel, b, hc, h, -⟩
  have hb := (cyclic_spec hc).2.trans (cyclic_spec hfalse).2.symm
  exact hnot (h (by simpa using hb))

/-- An array of two elements, the second of which is the slice of its first one. -/
def headSlice : Graph String := ⟨[], [[.scalar "a", .slice ⟨0, 0, 1⟩]], [], []⟩

/-- The check answers true for an array that holds a slice of its first element, in which nothing holds
itself. -/
theorem headSlice_refused :
    cyclic headSlice 2 (.slice ⟨0, 0, 2⟩) ∅ = some (true, ∅) ∧
      ¬ Loop (contents headSlice) (.slice ⟨0, 0, 2⟩) := by
  have h : Terminates headSlice Op.src (.slice ⟨0, 0, 2⟩) := ⟨3, by decide⟩
  exact ⟨by decide, (terminates_iff Op.src _).1 h⟩

end TabnasExpr.Go

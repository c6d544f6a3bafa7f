import TabnasExpr.Rust.Value

/-!
# Simplifying a realized value

`simplify` knows an operation by its handle, and after `realize` by the description that leads its
array. The two readings come apart where an array is led by a map whose `src` is the node the map is
in, which realizes to a text, and at nodes without an operator, which an arena may hold and no writer
makes: their array may be led by such a map too, and an undefined element is dropped from the node but
kept in the array.
-/

namespace TabnasExpr.Rust.Value

open Walk

universe u

variable {ν : Type u} [Double ν]

/-! ## Values that are read alike -/

/-- The `src` of a map is a node the walk is inside of. -/
def Circled (opened : List ℕ) (v : Value ν) : Prop := ∃ w ∈ v.get "src", ∃ i ∈ nodeId w, i ∈ opened

mutual

/-- A value is read alike before and after it is realized, if the nodes it has handles of are: an array
that an operator does not lead is not led by a map with a node around it for `src`. -/
def SteadyIn (opened : List ℕ) (node : ℕ → Prop) : Value ν → Prop
  | .listRef xs implicit child metas =>
    match nodeId (.listRef xs implicit child metas) with
    | none => SteadyAll opened node xs
    | some id => node id
  | .array [] => True
  | .array (x :: xs) =>
    match realizedSource (some x) with
    | some _ => SteadyAll opened node xs
    | none => ¬ Circled opened x ∧ SteadyIn opened node x ∧ SteadyAll opened node xs
  | .object ms => SteadyMembers opened node ms
  | .mapRef ms _ _ => SteadyMembers opened node ms
  | _ => True

def SteadyAll (opened : List ℕ) (node : ℕ → Prop) : List (Value ν) → Prop
  | [] => True
  | x :: xs => SteadyIn opened node x ∧ SteadyAll opened node xs

def SteadyMembers (opened : List ℕ) (node : ℕ → Prop) : List (String × Value ν) → Prop
  | [] => True
  | (_, x) :: ms => SteadyIn opened node x ∧ SteadyMembers opened node ms

end

/-- The terms of a node with no operator: none is undefined, and the first is no map that is read as an
operator. -/
def PlainTerms (opened : List ℕ) (terms : List (Value ν)) : Prop :=
  (∀ t ∈ terms, t.isUndefined = false) ∧
    ∀ t ∈ terms.head?, realizedSource (some t) = none ∧ ¬ Circled opened t

variable (A : Store (ValueNode ν))

/-- A node is read alike before and after it is realized, inside of certain nodes. -/
def SteadyNode : ℕ → List ℕ → ℕ → Prop
  | 0, _, _ => True
  | fuel + 1, opened, id =>
    id ∈ opened ∨ ∀ entry ∈ A.cell id,
      (entry.op = none → PlainTerms (id :: opened) entry.terms) ∧
        SteadyAll (id :: opened) (SteadyNode fuel (id :: opened)) entry.terms

/-- A value is read alike before and after it is realized. -/
def Steady (v : Value ν) : Prop := SteadyIn [] (SteadyNode A (A.last + 2) []) v

/-- The arena holds every node at or below one, and each operator there has a source text. -/
def SourcedNode (i : ℕ) : Prop :=
  ∀ j, Reaches (links A) i j → ∃ entry, A.cell j = some entry ∧ ∀ op ∈ entry.op, op.src ≠ ""

/-- The handles of a value are live, and their operators have source texts. -/
def Sourced (v : Value ν) : Prop := ∀ i ∈ handles v, SourcedNode A i

/-! ## Through a value -/

section Walks

variable (opened : List ℕ) (rnode snode : ℕ → Option (Value ν)) (gnode : ℕ → Prop)

/-- What is known of a value, its realized form and its simplified form, inside of certain nodes. -/
structure Settles (v r s : Value ν) : Prop where
  realized : realizeSeen rnode v = some r
  simplified : simplifySeen snode v = some s
  undefined : r.isUndefined = v.isUndefined
  isText : ∀ t, r = .string t ↔ v = .string t ∨ (∃ i ∈ nodeId v, i ∈ opened) ∧ t = "[CIRCLE]"
  circled : Circled opened v → realizedSource (some r) = some "[CIRCLE]" ∧ realizedSource (some v) = none
  uncircled : ¬ Circled opened v → realizedSource (some r) = realizedSource (some v)
  isMap : v.get "src" ≠ none → ∃ ms, s = .object ms
  again : ∀ node, ∃ s', simplifySeen node r = some s' ∧ (s' = s ↔ SteadyIn opened gnode v)

/-- What is known of a node. -/
structure NodeSettles (i : ℕ) (r s : Value ν) : Prop where
  realized : rnode i = some r
  simplified : snode i = some s
  inside : i ∈ opened → r = circle
  outside : i ∉ opened → ∃ xs, r = .array xs
  again : ∀ node, ∃ s', simplifySeen node r = some s' ∧ (s' = s ↔ gnode i)

end Walks

variable {opened : List ℕ} {rnode snode : ℕ → Option (Value ν)} {gnode : ℕ → Prop}

theorem simplifyFilled_cons {node : ℕ → Option (Value ν)} {x : Value ν} (hx : x.isUndefined = false)
    (xs : List (Value ν)) : simplifyFilled node (x :: xs) =
      (simplifySeen node x).bind fun y => (simplifyFilled node xs).map (y :: ·) := by
  rw [simplifyFilled]
  · cases simplifySeen node x with
    | none => rfl
    | some y => cases simplifyFilled node xs <;> rfl
  · rintro rfl
    simp [isUndefined] at hx

theorem settles_all {xs : List (Value ν)}
    (h : ∀ x ∈ xs, ∃ r s, Settles opened rnode snode gnode x r s) :
    ∃ rs ss, realizeAll rnode xs = some rs ∧ simplifyAll snode xs = some ss ∧
      ∀ node, ∃ ss', simplifyAll node rs = some ss' ∧ (ss' = ss ↔ SteadyAll opened gnode xs) := by
  induction xs with
  | nil => exact ⟨[], [], rfl, rfl, fun node => ⟨[], rfl, by simp [SteadyAll]⟩⟩
  | cons x xs ih =>
    obtain ⟨r, s, hx⟩ := h x List.mem_cons_self
    obtain ⟨rs, ss, hrs, hss, hagain⟩ := ih fun y hy => h y (List.mem_cons_of_mem x hy)
    refine ⟨r :: rs, s :: ss, by simp [realizeAll, hx.realized, hrs],
      by simp [simplifyAll, hx.simplified, hss], fun node => ?_⟩
    obtain ⟨s', hs', hsteady⟩ := hx.again node
    obtain ⟨ss', hss', hsteadys⟩ := hagain node
    exact ⟨s' :: ss', by simp [simplifyAll, hs', hss'], by simp [SteadyAll, hsteady, hsteadys]⟩

theorem settles_filled {xs : List (Value ν)}
    (h : ∀ x ∈ xs, ∃ r s, Settles opened rnode snode gnode x r s) :
    ∃ rs ss, realizeAll rnode xs = some rs ∧ simplifyFilled snode xs = some ss ∧
      ∀ node, ∃ ss', simplifyFilled node rs = some ss' ∧ (ss' = ss ↔ SteadyAll opened gnode xs) := by
  induction xs with
  | nil => exact ⟨[], [], rfl, rfl, fun node => ⟨[], rfl, by simp [SteadyAll]⟩⟩
  | cons x xs ih =>
    obtain ⟨r, s, hx⟩ := h x List.mem_cons_self
    obtain ⟨rs, ss, hrs, hss, hagain⟩ := ih fun y hy => h y (List.mem_cons_of_mem x hy)
    cases hu : x.isUndefined with
    | true =>
      obtain rfl := eq_undefined hu
      obtain rfl := eq_undefined (hx.undefined.trans hu)
      refine ⟨.undefined :: rs, ss, by simp [realizeAll, hx.realized, hrs],
        by simp [simplifyFilled, hss], fun node => ?_⟩
      obtain ⟨ss', hss', hsteadys⟩ := hagain node
      exact ⟨ss', by simp [simplifyFilled, hss'], by simp [SteadyAll, SteadyIn, hsteadys]⟩
    | false =>
      refine ⟨r :: rs, s :: ss, by simp [realizeAll, hx.realized, hrs],
        by simp [simplifyFilled_cons hu, hx.simplified, hss], fun node => ?_⟩
      obtain ⟨s', hs', hsteady⟩ := hx.again node
      obtain ⟨ss', hss', hsteadys⟩ := hagain node
      exact ⟨s' :: ss', by simp [simplifyFilled_cons (hx.undefined.trans hu), hs', hss'],
        by simp [SteadyAll, hsteady, hsteadys]⟩

theorem settles_members {ms : List (String × Value ν)}
    (h : ∀ m ∈ ms, ∃ r s, Settles opened rnode snode gnode m.2 r s) :
    ∃ rs ss, realizeMembers rnode ms = some rs ∧ simplifyMembers snode ms = some ss ∧
      (∀ k, rs.lookup k = none ∧ ms.lookup k = none ∨ ∃ v r s, ms.lookup k = some v ∧
        rs.lookup k = some r ∧ Settles opened rnode snode gnode v r s) ∧
      ∀ node, ∃ ss', simplifyMembers node rs = some ss' ∧ (ss' = ss ↔ SteadyMembers opened gnode ms) := by
  induction ms with
  | nil => exact ⟨[], [], rfl, rfl, fun k => .inl ⟨rfl, rfl⟩,
      fun node => ⟨[], rfl, by simp [SteadyMembers]⟩⟩
  | cons m ms ih =>
    obtain ⟨k, x⟩ := m
    obtain ⟨r, s, hx⟩ := h (k, x) List.mem_cons_self
    obtain ⟨rs, ss, hrs, hss, hlookup, hagain⟩ := ih fun y hy => h y (List.mem_cons_of_mem _ hy)
    refine ⟨(k, r) :: rs, (k, s) :: ss, by simp [realizeMembers, hx.realized, hrs],
      by simp [simplifyMembers, hx.simplified, hss], fun k' => ?_, fun node => ?_⟩
    · by_cases hk : k' = k
      · subst hk
        exact .inr ⟨x, r, s, by simp, by simp, hx⟩
      · have hk : (k' == k) = false := by simpa using hk
        simpa [List.lookup_cons, hk] using hlookup k'
    · obtain ⟨s', hs', hsteady⟩ := hx.again node
      obtain ⟨ss', hss', hsteadys⟩ := hagain node
      exact ⟨(k, s') :: ss', by simp [simplifyMembers, hs', hss'],
        by simp [SteadyMembers, hsteady, hsteadys]⟩

/-- A text leads a realized map as it led the map, or it stands for a node. -/
theorem source_settles {v r : Value ν}
    (h : r.get "src" = none ∧ v.get "src" = none ∨ ∃ w rw sw, v.get "src" = some w ∧
      r.get "src" = some rw ∧ Settles opened rnode snode gnode w rw sw) :
    (Circled opened v → realizedSource (some r) = some "[CIRCLE]" ∧ realizedSource (some v) = none) ∧
      (¬ Circled opened v → realizedSource (some r) = realizedSource (some v)) := by
  rcases h with ⟨hr, hv⟩ | ⟨w, rw, sw, hv, hr, hw⟩
  · simp [Circled, realizedSource, hv, hr]
  · have hcirc : Circled opened v ↔ ∃ i ∈ nodeId w, i ∈ opened := by simp [Circled, hv]
    simp only [hcirc, realizedSource, Option.bind_some, hv, hr]
    constructor
    · intro hi
      obtain rfl := (hw.isText "[CIRCLE]").2 (.inr ⟨hi, rfl⟩)
      refine ⟨rfl, ?_⟩
      obtain ⟨i, hi, -⟩ := hi
      cases w <;> first | rfl | simp [nodeId] at hi
    · intro hi
      have htext : ∀ t, rw = .string t ↔ w = .string t := fun t =>
        (hw.isText t).trans (or_iff_left fun h => hi h.1)
      by_cases ht : ∃ t, w = .string t
      · obtain ⟨t, rfl⟩ := ht
        rw [(htext t).2 rfl]
      · have hnone : ∀ x : Value ν, (∀ t, x ≠ .string t) → sourceText (some x) = none := by
          intro x hx
          cases x <;> first | rfl | exact absurd rfl (hx _)
        rw [hnone w fun t h => ht ⟨t, h⟩, hnone _ fun t h => ht ⟨t, (htext t).1 h⟩]

theorem settles_node {xs : List (Value ν)} {implicit : Bool} {child : Option (Value ν)}
    {metas : List (String × Value ν)} {i : ℕ} (hid : nodeId (.listRef xs implicit child metas) = some i)
    {r s : Value ν} (h : NodeSettles opened rnode snode gnode i r s) :
    Settles opened rnode snode gnode (.listRef xs implicit child metas) r s where
  realized := by simp [realizeSeen, hid, h.realized]
  simplified := by simp [simplifySeen, hid, h.simplified]
  undefined := by
    by_cases hi : i ∈ opened
    · rw [h.inside hi]
      rfl
    · obtain ⟨xs, rfl⟩ := h.outside hi
      rfl
  isText t := by
    by_cases hi : i ∈ opened
    · simp [h.inside hi, circle, hid, hi, eq_comm]
    · obtain ⟨xs, rfl⟩ := h.outside hi
      simp [hid, hi]
  circled hc := by simp [Circled, get] at hc
  uncircled _ := by
    by_cases hi : i ∈ opened
    · rw [h.inside hi]
      rfl
    · obtain ⟨xs, rfl⟩ := h.outside hi
      rfl
  isMap hm := absurd rfl hm
  again node := by simpa [SteadyIn, hid] using h.again node

theorem settles_array {xs : List (Value ν)}
    (h : ∀ x ∈ xs, ∃ r s, Settles opened rnode snode gnode x r s) :
    ∃ r s, Settles opened rnode snode gnode (.array xs) r s := by
  cases xs with
  | nil =>
    refine ⟨.array [], .array [], rfl, rfl, rfl, by simp [nodeId], ?_, fun _ => rfl, by simp [get],
      fun node => ⟨.array [], rfl, by simp [SteadyIn]⟩⟩
    simp [Circled, get]
  | cons x xs =>
    obtain ⟨r, s, hx⟩ := h x List.mem_cons_self
    have hxs := fun y hy => h y (List.mem_cons_of_mem x hy)
    obtain ⟨rs, ss, hrs, hss, hagain⟩ := settles_all hxs
    obtain ⟨rs', fs, hrs', hfs, hfilled⟩ := settles_filled hxs
    obtain rfl : rs = rs' := Option.some.inj (hrs.symm.trans hrs')
    have hreal : realizeSeen rnode (.array (x :: xs)) = some (.array (r :: rs)) := by
      simp [realizeSeen, realizeAll, hx.realized, hrs]
    have hshape : ∀ s, simplifySeen snode (.array (x :: xs)) = some s →
        (∀ node, ∃ s', simplifySeen node (.array (r :: rs)) = some s' ∧
          (s' = s ↔ SteadyIn opened gnode (.array (x :: xs)))) →
        Settles opened rnode snode gnode (.array (x :: xs)) (.array (r :: rs)) s := fun s hs hagain =>
      ⟨hreal, hs, rfl, by simp [nodeId], by simp [Circled, get], fun _ => rfl, by simp [get], hagain⟩
    cases hsrc : realizedSource (some x) with
    | some src =>
      have hr : realizedSource (some r) = some src := by
        rw [hx.uncircled fun hc => by simp [(hx.circled hc).2] at hsrc, hsrc]
      refine ⟨_, _, hshape (.array (.string src :: fs)) (by simp [simplifySeen, hsrc, hfs])
        fun node => ?_⟩
      obtain ⟨fs', hfs', hsteady⟩ := hfilled node
      exact ⟨.array (.string src :: fs'), by simp [simplifySeen, hr, hfs'],
        by simp [SteadyIn, hsrc, hsteady]⟩
    | none =>
      refine ⟨_, _, hshape (.array (s :: ss)) (by simp [simplifySeen, hsrc, hx.simplified, hss])
        fun node => ?_⟩
      by_cases hc : Circled opened x
      · obtain ⟨fs', hfs', -⟩ := hfilled node
        refine ⟨.array (.string "[CIRCLE]" :: fs'), by simp [simplifySeen, (hx.circled hc).1, hfs'], ?_⟩
        have hmap : x.get "src" ≠ none := by
          obtain ⟨w, hw, -⟩ := hc
          simp [Option.mem_def.1 hw]
        obtain ⟨ms, rfl⟩ := hx.isMap hmap
        simp [SteadyIn, hsrc, hc]
      · obtain ⟨s', hs', hsteady⟩ := hx.again node
        obtain ⟨ss', hss', hsteadys⟩ := hagain node
        have hr : realizedSource (some r) = none := (hx.uncircled hc).trans hsrc
        exact ⟨.array (s' :: ss'), by simp [simplifySeen, hr, hs', hss'],
          by simp [SteadyIn, hsrc, hc, hsteady, hsteadys]⟩

/-- Where the nodes are settled, every value is. -/
theorem settles (v : Value ν)
    (h : ∀ i ∈ handles v, ∃ r s, NodeSettles opened rnode snode gnode i r s) :
    ∃ r s, Settles opened rnode snode gnode v r s := by
  induction v using Value.induction with
  | array xs ih =>
    exact settles_array fun x hx => ih x hx fun i hi => h i (mem_handlesAll.2 ⟨x, hx, hi⟩)
  | listRef xs implicit child metas ih =>
    cases hid : nodeId (.listRef xs implicit child metas) with
    | some id =>
      obtain ⟨r, s, hn⟩ := h id (by simp [handles, hid])
      exact ⟨r, s, settles_node hid hn⟩
    | none =>
      obtain ⟨rs, ss, hrs, hss, hagain⟩ := settles_all fun x hx => ih x hx fun i hi =>
        h i (by simpa [handles, hid] using mem_handlesAll.2 ⟨x, hx, hi⟩)
      have hid' : nodeId (.listRef rs implicit child metas) = none := hid
      refine ⟨.listRef rs implicit child metas, .array ss, by simp [realizeSeen, hid, hrs],
        by simp [simplifySeen, hid, hss], rfl, by simp [hid], by simp [Circled, get], fun _ => rfl,
        by simp [get], fun node => ?_⟩
      obtain ⟨ss', hss', hsteady⟩ := hagain node
      exact ⟨.array ss', by simp [simplifySeen, hid', hss'], by simp [SteadyIn, hid, hsteady]⟩
  | object ms ih =>
    obtain ⟨rs, ss, hrs, hss, hlookup, hagain⟩ := settles_members fun m hm => ih m hm fun i hi =>
      h i (mem_handlesMembers.2 ⟨m, hm, hi⟩)
    have hsource := source_settles (v := .object ms) (r := .object rs) (hlookup "src")
    refine ⟨.object rs, .object ss, by simp [realizeSeen, hrs], by simp [simplifySeen, hss], rfl,
      by simp [nodeId], hsource.1, hsource.2, fun _ => ⟨ss, rfl⟩, fun node => ?_⟩
    obtain ⟨ss', hss', hsteady⟩ := hagain node
    exact ⟨.object ss', by simp [simplifySeen, hss'], by simp [SteadyIn, hsteady]⟩
  | mapRef ms implicit metas ih =>
    obtain ⟨rs, ss, hrs, hss, hlookup, hagain⟩ := settles_members fun m hm => ih m hm fun i hi =>
      h i (mem_handlesMembers.2 ⟨m, hm, hi⟩)
    have hsource := source_settles (v := .mapRef ms implicit metas) (r := .mapRef rs implicit metas)
      (hlookup "src")
    refine ⟨.mapRef rs implicit metas, .object ss, by simp [realizeSeen, hrs],
      by simp [simplifySeen, hss], rfl, by simp [nodeId], hsource.1, hsource.2, fun _ => ⟨ss, rfl⟩,
      fun node => ?_⟩
    obtain ⟨ss', hss', hsteady⟩ := hagain node
    exact ⟨.object ss', by simp [simplifySeen, hss'], by simp [SteadyIn, hsteady]⟩
  | _ =>
    exact ⟨_, _, rfl, rfl, rfl, by simp [nodeId, eq_comm], by simp [Circled, get], fun _ => rfl,
      by simp [get], fun node => ⟨_, rfl, by simp [SteadyIn]⟩⟩

/-! ## Through the nodes -/

theorem simplifyFilled_eq (node : ℕ → Option (Value ν)) (xs : List (Value ν)) :
    simplifyFilled node xs = simplifyAll node (xs.filter fun x => !x.isUndefined) := by
  induction xs with
  | nil => rfl
  | cons x xs ih =>
    cases hu : x.isUndefined with
    | true =>
      obtain rfl := eq_undefined hu
      simpa [simplifyFilled, isUndefined] using ih
    | false =>
      rw [simplifyFilled_cons hu, ih]
      simp only [List.filter_cons, hu, Bool.not_false, if_true, simplifyAll]
      cases simplifySeen node x with
      | none => rfl
      | some y => cases simplifyAll node (xs.filter fun x => !x.isUndefined) <;> rfl

theorem length_simplifyAll {node : ℕ → Option (Value ν)} {xs ys : List (Value ν)}
    (h : simplifyAll node xs = some ys) : ys.length = xs.length := by
  induction xs generalizing ys with
  | nil =>
    obtain rfl : [] = ys := by simpa [simplifyAll] using h
    rfl
  | cons x xs ih =>
    cases hx : simplifySeen node x with
    | none => simp [simplifyAll, hx] at h
    | some y =>
      cases hxs : simplifyAll node xs with
      | none => simp [simplifyAll, hx, hxs] at h
      | some zs =>
        obtain rfl : y :: zs = ys := by simpa [simplifyAll, hx, hxs] using h
        simp [ih hxs]

theorem length_realizeAll {node : ℕ → Option (Value ν)} {xs ys : List (Value ν)}
    (h : realizeAll node xs = some ys) : ys.length = xs.length := by
  induction xs generalizing ys with
  | nil =>
    obtain rfl : [] = ys := by simpa [realizeAll] using h
    rfl
  | cons x xs ih =>
    cases hx : realizeSeen node x with
    | none => simp [realizeAll, hx] at h
    | some y =>
      cases hxs : realizeAll node xs with
      | none => simp [realizeAll, hx, hxs] at h
      | some zs =>
        obtain rfl : y :: zs = ys := by simpa [realizeAll, hx, hxs] using h
        simp [ih hxs]

/-- The list of a node without an operator is read alike exactly when its terms are plain. -/
theorem settles_plain {xs : List (Value ν)}
    (h : ∀ x ∈ xs, ∃ r s, Settles opened rnode snode gnode x r s) :
    ∃ rs fs, realizeAll rnode xs = some rs ∧ simplifyFilled snode xs = some fs ∧
      ∀ node, ∃ s', simplifySeen node (.array rs) = some s' ∧
        (s' = .array fs ↔ PlainTerms opened xs ∧ SteadyAll opened gnode xs) := by
  obtain ⟨rs, fs, hrs, hfs, -⟩ := settles_filled h
  obtain ⟨rs', ss, hrs', hss, hagain⟩ := settles_all h
  obtain rfl : rs = rs' := Option.some.inj (hrs.symm.trans hrs')
  refine ⟨rs, fs, hrs, hfs, fun node => ?_⟩
  cases xs with
  | nil =>
    obtain rfl : [] = rs := by simpa [realizeAll] using hrs
    obtain rfl : [] = fs := by simpa [simplifyFilled] using hfs
    exact ⟨.array [], rfl, by simp [PlainTerms, SteadyAll]⟩
  | cons x xs =>
    obtain ⟨r, s, hx⟩ := h x List.mem_cons_self
    obtain ⟨rs, rfl⟩ : ∃ rs', rs = r :: rs' := by
      cases hxs : realizeAll rnode xs with
      | none => simp [realizeAll, hx.realized, hxs] at hrs
      | some zs => exact ⟨zs, by simpa [realizeAll, hx.realized, hxs, eq_comm] using hrs⟩
    cases hlead : realizedSource (some r) with
    | some src =>
      -- the head is a map, which the array leaves to its source text and the node keeps
      have hget : x.get "src" ≠ none := by
        by_cases hc : Circled opened x
        · obtain ⟨w, hw, -⟩ := hc
          simp [Option.mem_def.1 hw]
        · intro hg
          rw [hx.uncircled hc] at hlead
          simp [realizedSource, hg, sourceText] at hlead
      obtain ⟨ms, rfl⟩ := hx.isMap hget
      have hu : x.isUndefined = false := by cases x <;> simp [get, isUndefined] at hget ⊢
      obtain ⟨rs', fs', hrs', hfs', hfilled⟩ :=
        settles_filled fun y hy => h y (List.mem_cons_of_mem x hy)
      obtain rfl : rs' = rs := by simpa [realizeAll, hx.realized, hrs'] using hrs
      obtain rfl : .object ms :: fs' = fs := by
        simpa [simplifyFilled_cons hu, hx.simplified, hfs'] using hfs
      obtain ⟨gs, hgs, -⟩ := hfilled node
      refine ⟨.array (.string src :: gs), by simp [simplifySeen, hlead, hgs], ?_⟩
      have hplain : ¬ PlainTerms opened (x :: xs) := by
        rintro ⟨-, hhead⟩
        obtain ⟨hnone, hc⟩ := hhead x rfl
        rw [hx.uncircled hc, hnone] at hlead
        cases hlead
      simp [hplain]
    | none =>
      obtain ⟨ss', hss', hsteady⟩ := hagain node
      have hagain : simplifySeen node (.array (r :: rs)) = some (.array ss') := by
        have : simplifySeen node (.array (r :: rs)) = (simplifyAll node (r :: rs)).map .array := by
          simp only [simplifySeen, hlead, simplifyAll]
          cases simplifySeen node r with
          | none => rfl
          | some y => cases simplifyAll node rs <;> rfl
        rw [this, hss']
        rfl
      refine ⟨.array ss', hagain, ?_⟩
      have hhead : ∀ t ∈ (x :: xs).head?, realizedSource (some t) = none ∧ ¬ Circled opened t := by
        intro t ht
        obtain rfl : x = t := by simpa using ht
        have hc : ¬ Circled opened x := fun hc => by simp [(hx.circled hc).1] at hlead
        exact ⟨(hx.uncircled hc).symm.trans hlead, hc⟩
      rw [simplifyFilled_eq] at hfs
      by_cases hall : ∀ t ∈ x :: xs, t.isUndefined = false
      · rw [List.filter_eq_self.2 (by simpa using hall), hss] at hfs
        obtain rfl := Option.some.inj hfs
        have hplain : PlainTerms opened (x :: xs) := ⟨hall, hhead⟩
        simp [hplain, hsteady]
      · have hplain : ¬ PlainTerms opened (x :: xs) := fun hp => hall hp.1
        have hlen : fs.length < ss'.length := by
          rw [length_simplifyAll hfs, length_simplifyAll hss', length_realizeAll hrs]
          refine lt_of_le_of_ne (List.length_filter_le _ _) fun heq => hall ?_
          simpa using List.length_filter_eq_length_iff.1 heq
        have hne : ss' ≠ fs := by
          rintro rfl
          exact lt_irrefl _ hlen
        simp [hplain, hne]

variable {A : Store (ValueNode ν)}

theorem SourcedNode.link {i j : ℕ} (h : SourcedNode A i) (hj : j ∈ links A i) : SourcedNode A j :=
  fun k hk => h k (.head hj hk)

theorem SourcedNode.live {i : ℕ} (h : SourcedNode A i) : LiveNode A i := fun j hj => by
  obtain ⟨entry, he, -⟩ := h j hj
  simp [he]

theorem nodeSettles_succ {fuel : ℕ} {opened : List ℕ} {i : ℕ} {entry : ValueNode ν}
    (he : A.cell i = some entry) (hsrc : ∀ op ∈ entry.op, op.src ≠ "")
    (ih : i ∉ opened → ∀ j ∈ handlesAll entry.terms, ∃ r s, NodeSettles (i :: opened)
      (realizeNode A fuel (i :: opened)) (simplifyNode A fuel (i :: opened))
      (SteadyNode A fuel (i :: opened)) j r s) :
    ∃ r s, NodeSettles opened (realizeNode A (fuel + 1) opened) (simplifyNode A (fuel + 1) opened)
      (SteadyNode A (fuel + 1) opened) i r s := by
  by_cases hio : i ∈ opened
  · exact ⟨circle, circle, by simp [realizeNode, hio], by simp [simplifyNode, hio], fun _ => rfl,
      fun h => absurd hio h, fun node => ⟨circle, rfl, by simp [SteadyNode, hio]⟩⟩
  · have ih := ih hio
    have hterms := fun x hx => settles x fun j hj => ih j (mem_handlesAll.2 ⟨x, hx, hj⟩)
    cases hop : entry.op with
    | none =>
      obtain ⟨rs, fs, hrs, hfs, hagain⟩ := settles_plain hterms
      refine ⟨.array rs, .array fs, by simp [realizeNode, hio, he, hop, hrs],
        by simp [simplifyNode, hio, he, hop, hfs], fun h => absurd h hio, fun _ => ⟨rs, rfl⟩,
        fun node => ?_⟩
      obtain ⟨s', hs', hsteady⟩ := hagain node
      exact ⟨s', hs', by simp [SteadyNode, hio, he, hop, hsteady]⟩
    | some op =>
      obtain ⟨rs, fs, hrs, hfs, hagain⟩ := settles_filled hterms
      have hlead : realizedSource (some (op.toValue entry.token)) = some op.src := by
        simp [realizedSource, Description.toValue, get, sourceText, hsrc op hop]
      refine ⟨.array (op.toValue entry.token :: rs), .array (.string op.src :: fs),
        by simp [realizeNode, hio, he, hop, hrs], by simp [simplifyNode, hio, he, hop, hfs],
        fun h => absurd h hio, fun _ => ⟨_, rfl⟩, fun node => ?_⟩
      obtain ⟨fs', hfs', hsteady⟩ := hagain node
      exact ⟨.array (.string op.src :: fs'), by simp [simplifySeen, hlead, hfs'],
        by simp [SteadyNode, hio, he, hop, hsteady]⟩

/-- A value with live handles, whose operators have source texts, is realized, and simplifies to the
same before and after, exactly when it is steady. -/
theorem simplify_realize_iff {v : Value ν} (hv : Sourced A v) :
    ∃ r s s', realize A v = some r ∧ simplify A v = some s ∧ simplify A r = some s' ∧
      (s' = s ↔ Steady A v) := by
  have hnode : ∀ i ∈ handles v, ∃ r s, NodeSettles [] (realizeNode A (A.last + 2) [])
      (simplifyNode A (A.last + 2) []) (SteadyNode A (A.last + 2) []) i r s := by
    intro i hi
    refine walk_induction (motive := fun fuel opened i => ∃ r s, NodeSettles opened
      (realizeNode A fuel opened) (simplifyNode A fuel opened) (SteadyNode A fuel opened) i r s)
      (fun _ h => h.live) (fun _ h _ hj => h.link hj) (fun fuel opened i entry hP he ih => ?_) (hv i hi)
    obtain ⟨entry', he', hsrc⟩ := hP i .refl
    obtain rfl := Option.some.inj (he.symm.trans he')
    exact nodeSettles_succ he hsrc ih
  obtain ⟨r, s, h⟩ := settles v hnode
  obtain ⟨s', hs', hsteady⟩ := h.again (simplifyNode A (A.last + 2) [])
  exact ⟨r, s, s', h.realized, h.simplified, hs', hsteady⟩

/-! ## A node with a map that names it -/

/-- The operator `+`. -/
def plus : Description ℤ where
  name := "addition-infix"
  src := "+"
  left := 2000000
  right := 2100000
  useData := .undefined
  kinds := [.infixOp]
  terms := 2
  tkn := "#E+"
  tin := 30
  osrc := ""
  csrc := ""
  otkn := ""
  otin := -1
  ctkn := ""
  ctin := -1
  preval := noPreval
  ternaryIndex := none

/-- An arena with one node, the sum of a list that is led by a map with the node for its `src`. -/
def selfSource : Store (ValueNode ℤ) :=
  (Store.empty.alloc ⟨some plus, none, [.array [.object [("src", handleFor 1)]]]⟩).1

theorem cell_selfSource :
    selfSource.cell 1 = some ⟨some plus, none, [.array [.object [("src", handleFor 1)]]]⟩ := rfl

theorem reaches_selfSource {j : ℕ} (h : Reaches (links selfSource) 1 j) : j = 1 := by
  induction h with
  | refl => rfl
  | tail _ hj ih =>
    subst ih
    simpa [Holds, links, cell_selfSource, handlesAll, handles, handlesMembers, handleFor, nodeId,
      Double.ofInt, Double.asU64] using hj

theorem sourced_selfSource : Sourced selfSource (handleFor 1) := by
  intro i hi j hj
  obtain rfl : i = 1 := by simpa [handles, handleFor, nodeId, Double.ofInt, Double.asU64] using hi
  obtain rfl := reaches_selfSource hj
  exact ⟨_, cell_selfSource, by simp [plus]⟩

theorem simplify_realize_selfSource_iff :
    ∃ r s s', realize selfSource (handleFor 1) = some r ∧ simplify selfSource (handleFor 1) = some s ∧
      simplify selfSource r = some s' ∧ (s' = s ↔ Steady selfSource (handleFor 1)) :=
  simplify_realize_iff sourced_selfSource

/-- The map is a member of the list before it is realized, and is read as an operator after. -/
theorem simplify_realize_differ : Sourced selfSource (handleFor 1) ∧
    ∃ r s s', realize selfSource (handleFor 1) = some r ∧ simplify selfSource (handleFor 1) = some s ∧
      simplify selfSource r = some s' ∧ s' ≠ s :=
  ⟨sourced_selfSource, _, .array [.string "+", .array [.object [("src", circle)]]],
    .array [.string "+", .array [circle]], rfl, rfl, rfl, by simp [circle]⟩

end TabnasExpr.Rust.Value

import TabnasExpr.CyclicGuard
import TabnasExpr.Lib.Assoc

/-!
# Simplifying a value that may hold itself

`SimplifyOrdered` keeps the lists and maps it is inside of, and puts `[CIRCLE]` in the place of one it
comes to again.  So it comes to an end on every value, it puts a circle exactly where a container holds
itself, and elsewhere its result is that of the recursion without the account
(`simplifyOrdered_spec`).
-/

namespace TabnasExpr.Go.Graph

open Walk Relation

universe u

variable {α : Type u}

/-- What a container is known by: a list by the address of its first element and its length, a map by
its own. -/
inductive Container where
  | list (s : Slice)
  | orderedMap (p : ℕ)
  | map (p : ℕ)
  deriving DecidableEq

/-- A value `SimplifyOrdered` makes. A `circle` is the text `[CIRCLE]`, told apart from one of the
parse. -/
inductive Ordered (α : Type u) where
  | nil
  | scalar (v : α)
  | op (op : Op)
  | unfilled
  | circle
  | list (xs : List (Ordered α))
  | orderedMap (ms : List (String × Ordered α))
  | map (ms : List (String × Ordered α))

/-- `OrderedMap.Set`: a new key comes last. -/
abbrev Ordered.set (ms : List (String × Ordered α)) (k : String) (r : Ordered α) :
    List (String × Ordered α) :=
  Assoc.set ms k r

variable (g : Graph α) (src : Op → α) (isText : α → Bool)

/-- The text a value is, when there is something in it. -/
def sourceText : Option (Any α) → Option α
  | some (.scalar v) => if isText v then some v else none
  | _ => none

/-- The source text a head stands for; that of an operator, a paren operator's opening one, is left to
`src`. -/
def operatorSource : Any α → Option α
  | .op op => some (src op)
  | .orderedMap (some p) => sourceText isText ((g.orderedMap p).vals.lookup "src")
  | .map p => sourceText isText ((g.map p).lookup "src")
  | _ => none

/-- The loop over the terms of a list. -/
def orderedTerms (simplify : Any α → Option (Ordered α)) : List (Any α) → Option (List (Ordered α))
  | [] => some []
  | el :: els =>
    if el.isUnfilled then orderedTerms simplify els
    else do
      let r ← simplify el
      let rest ← orderedTerms simplify els
      some (r :: rest)

/-- The first of a list, its source text if it is an operator. -/
def orderedHead (simplify : Any α → Option (Ordered α)) (head : Any α) : Option (List (Ordered α)) :=
  match g.operatorSource src isText head with
  | some text => some [.scalar text]
  | none => orderedTerms simplify [head]

/-- The loop over the keys of an ordered map. -/
def orderedMembers (simplify : Any α → Option (Ordered α)) (m : OrderedMap α) :
    List String → List (String × Ordered α) → Option (List (String × Ordered α))
  | [], ms => some ms
  | k :: keys, ms => do
    let r ← simplify (m.val k)
    orderedMembers simplify m keys (Ordered.set ms k r)

/-- What a container is reduced to. -/
def reduced (simplify : Any α → Option (Ordered α)) : Container → Option (Ordered α)
  | .list s =>
    match g.elements s with
    | [] => some (.list [])
    | head :: els => do
      let first ← g.orderedHead src isText simplify head
      let rest ← orderedTerms simplify els
      some (.list (first ++ rest))
  | .orderedMap p => (orderedMembers simplify (g.orderedMap p) (g.orderedMap p).keys []).map .orderedMap
  | .map p => ((g.map p).mapM fun m => (simplify m.2).map (m.1, ·)).map .map

/-- The container a value is, unless it has nothing in it to be walked. -/
def opens : Any α → Option Container
  | .listRef (some p) => if g.elements (g.box p) = [] then none else some (.list (g.box p))
  | .slice s => if g.elements s = [] then none else some (.list s)
  | .orderedMap (some p) => some (.orderedMap p)
  | .map p => some (.map p)
  | _ => none

/-- What a value without a container is reduced to. -/
def bare : Any α → Ordered α
  | .listRef none | .orderedMap none | .nil => .nil
  | .scalar v => .scalar v
  | .op op => .op op
  | .unfilled => .unfilled
  | _ => .list []

/-- What a value is reduced to, with what the containers are. -/
def simplifyValue (container : Container → Option (Ordered α)) (v : Any α) : Option (Ordered α) :=
  match g.opens v with
  | some c => container c
  | none => some (bare v)

/-- What a container is reduced to, inside of some. -/
def container : ℕ → List Container → Container → Option (Ordered α)
  | 0, _, _ => none
  | fuel + 1, opened, c =>
    if c ∈ opened then some .circle
    else g.reduced src isText (g.simplifyValue (container fuel (c :: opened))) c

def simplifyOrdered (fuel : ℕ) (node : Any α) : Option (Ordered α) :=
  g.simplifyValue (g.container src isText fuel []) node

/-- The recursion without an account of the containers it is inside of. -/
def unguarded : ℕ → Container → Option (Ordered α)
  | 0, _ => none
  | fuel + 1, c => g.reduced src isText (g.simplifyValue (unguarded fuel)) c

/-! ### What the walk goes into -/

/-- The values in a container that are reduced. -/
def followed : Container → List (Any α)
  | .list s =>
    match g.elements s with
    | [] => []
    | head :: els =>
      (if (g.operatorSource src isText head).isSome then els else head :: els).filter fun el => !el.isUnfilled
  | .orderedMap p => (g.orderedMap p).keys.map (g.orderedMap p).val
  | .map p => (g.map p).map Prod.snd

/-- The containers in a container that are reduced. -/
def next (c : Container) : List Container := (g.followed src isText c).filterMap g.opens

/-- The containers a walk of the value can come to. -/
def containers (v : Any α) : List Container := (v :: g.values).filterMap g.opens

/-- Where the walk of the value goes, a container holds itself. -/
def Circular (v : Any α) : Prop := ∃ c, g.opens v = some c ∧ Loop (g.next src isText) c

/-- There is a circle in the value. -/
inductive Ordered.Marked : Ordered α → Prop
  | circle : Marked .circle
  | list (xs : List (Ordered α)) (x : Ordered α) (hx : x ∈ xs) (h : Marked x) : Marked (.list xs)
  | orderedMap (ms : List (String × Ordered α)) (m : String × Ordered α) (hm : m ∈ ms) (h : Marked m.2) :
    Marked (.orderedMap ms)
  | map (ms : List (String × Ordered α)) (m : String × Ordered α) (hm : m ∈ ms) (h : Marked m.2) :
    Marked (.map ms)

theorem Ordered.marked_list {xs : List (Ordered α)} : Marked (.list xs) ↔ ∃ x ∈ xs, Marked x :=
  ⟨fun | .list _ x hx h => ⟨x, hx, h⟩, fun ⟨x, hx, h⟩ => .list xs x hx h⟩

theorem Ordered.marked_orderedMap {ms : List (String × Ordered α)} :
    Marked (.orderedMap ms) ↔ ∃ m ∈ ms, Marked m.2 :=
  ⟨fun | .orderedMap _ m hm h => ⟨m, hm, h⟩, fun ⟨m, hm, h⟩ => .orderedMap ms m hm h⟩

theorem Ordered.marked_map {ms : List (String × Ordered α)} : Marked (.map ms) ↔ ∃ m ∈ ms, Marked m.2 :=
  ⟨fun | .map _ m hm h => ⟨m, hm, h⟩, fun ⟨m, hm, h⟩ => .map ms m hm h⟩

section Loops

variable {β γ : Type*} {h h' : β → Option γ} {xs : List β} {ys : List γ}

theorem mapM_mono (hh : ∀ x ∈ xs, ∀ y, h x = some y → h' x = some y) (hys : xs.mapM h = some ys) :
    xs.mapM h' = some ys := by
  induction xs generalizing ys with
  | nil => exact hys
  | cons x xs ih =>
    rw [List.forall_mem_cons] at hh
    simp only [List.mapM_cons, Option.bind_eq_bind, Option.bind_eq_some_iff, Option.pure_def,
      Option.some.injEq] at hys ⊢
    obtain ⟨y, hy, ys, hys, rfl⟩ := hys
    exact ⟨y, hh.1 y hy, ys, ih hh.2 hys, rfl⟩

theorem mem_mapM (hys : xs.mapM h = some ys) {y : γ} : y ∈ ys ↔ ∃ x ∈ xs, h x = some y := by
  induction xs generalizing ys with
  | nil =>
    cases hys
    simp
  | cons x xs ih =>
    simp only [List.mapM_cons, Option.bind_eq_bind, Option.bind_eq_some_iff, Option.pure_def,
      Option.some.injEq] at hys
    obtain ⟨z, hz, zs, hzs, rfl⟩ := hys
    simp [ih hzs, hz, eq_comm]

variable {f f' : Any α → Option (Ordered α)} {els : List (Any α)} {m : OrderedMap α} {keys : List String}
  {ms ms' : List (String × Ordered α)}

theorem orderedTerms_eq : orderedTerms f els = (els.filter fun el => !el.isUnfilled).mapM f := by
  induction els with
  | nil => rfl
  | cons el els ih =>
    rw [orderedTerms]
    cases hu : el.isUnfilled <;> simp [hu, ih]

theorem orderedMembers_ne_none (hf : ∀ k ∈ keys, f (m.val k) ≠ none) :
    orderedMembers f m keys ms ≠ none := by
  induction keys generalizing ms with
  | nil => simp [orderedMembers]
  | cons k keys ih =>
    rw [List.forall_mem_cons] at hf
    obtain ⟨r, hr⟩ := Option.ne_none_iff_exists'.1 hf.1
    rw [orderedMembers, hr]
    exact ih hf.2

theorem orderedMembers_mono (hf : ∀ k ∈ keys, ∀ r, f (m.val k) = some r → f' (m.val k) = some r)
    (hms : orderedMembers f m keys ms = some ms') : orderedMembers f' m keys ms = some ms' := by
  induction keys generalizing ms with
  | nil => exact hms
  | cons k keys ih =>
    rw [List.forall_mem_cons] at hf
    rw [orderedMembers, Option.bind_eq_bind, Option.bind_eq_some_iff] at hms ⊢
    obtain ⟨r, hr, hms⟩ := hms
    exact ⟨r, hf.1 r hr, ih hf.2 hms⟩

/-- Over distinct keys the loop that sets them makes the members one after the other. -/
theorem orderedMembers_eq {acc : List (String × Ordered α)} (h : keys.Nodup)
    (hacc : ∀ k ∈ keys, k ∉ acc.map Prod.fst) : orderedMembers f m keys acc =
      ((keys.map fun k => (k, m.val k)).mapM fun e => (f e.2).map (e.1, ·)).map (acc ++ ·) := by
  induction keys generalizing acc with
  | nil => simp [orderedMembers]
  | cons k keys ih =>
    rw [List.nodup_cons] at h
    rw [List.forall_mem_cons] at hacc
    rw [orderedMembers, List.map_cons, List.mapM_cons]
    cases hr : f (m.val k) with
    | none => simp
    | some r =>
      have hset : Ordered.set acc k r = acc ++ [(k, r)] := Assoc.set_of_not_mem hacc.1
      have hacc' : ∀ k' ∈ keys, k' ∉ (acc ++ [(k, r)]).map Prod.fst := by
        intro k' hk'
        have hne : k' ≠ k := fun hk => h.1 (hk ▸ hk')
        simpa [hne] using hacc.2 k' hk'
      simp only [hset, Option.bind_eq_bind, Option.bind_some, Option.map_some, ih h.2 hacc']
      cases ((keys.map fun k => (k, m.val k)).mapM fun e => (f e.2).map (e.1, ·)) <;> simp

/-- The members of the object are the keys, each with what its value is reduced to. -/
theorem orderedMembers_spec (hms : orderedMembers f m keys ms = some ms')
    (hv : ∀ e ∈ ms, f (m.val e.1) = some e.2) :
    (∀ e ∈ ms', f (m.val e.1) = some e.2) ∧
      ∀ k, k ∈ ms'.map Prod.fst ↔ k ∈ ms.map Prod.fst ∨ k ∈ keys := by
  induction keys generalizing ms with
  | nil =>
    cases hms
    exact ⟨hv, by simp⟩
  | cons k keys ih =>
    rw [orderedMembers, Option.bind_eq_bind, Option.bind_eq_some_iff] at hms
    obtain ⟨r, hr, hms⟩ := hms
    have hv' : ∀ e ∈ Ordered.set ms k r, f (m.val e.1) = some e.2 := by
      intro e he
      rcases Assoc.mem_set he with he | rfl
      · exact hv e he
      · exact hr
    obtain ⟨hval, hkeys⟩ := ih hms hv'
    refine ⟨hval, fun k' => ?_⟩
    rw [hkeys, Assoc.mem_keys_set, List.mem_cons, or_assoc]

end Loops

section Reduced

variable {g src isText} {f f' : Any α → Option (Ordered α)} {c : Container} {r : Ordered α}

/-- A list is led by a source text or by what its head is reduced to. -/
theorem reduced_list (g : Graph α) (src : Op → α) (isText : α → Bool) (s : Slice) :
    ∃ lead : List (Ordered α), (∀ x ∈ lead, ¬ x.Marked) ∧ ∀ f, g.reduced src isText f (.list s) =
      ((g.followed src isText (.list s)).mapM f).map fun rs => .list (lead ++ rs) := by
  cases he : g.elements s with
  | nil => exact ⟨[], by simp, fun f => by simp [reduced, followed, he]⟩
  | cons head els =>
    cases ho : g.operatorSource src isText head with
    | some text =>
      refine ⟨[.scalar text], ?_, fun f => ?_⟩
      · simp only [List.mem_singleton, forall_eq]
        rintro ⟨⟩
      · simp only [reduced, followed, he, orderedHead, ho, orderedTerms_eq, Option.isSome_some, if_true]
        cases (els.filter fun el => !el.isUnfilled).mapM f <;> rfl
    | none =>
      refine ⟨[], by simp, fun f => ?_⟩
      have happ : (head :: els).filter (fun el => !el.isUnfilled) =
          [head].filter (fun el => !el.isUnfilled) ++ els.filter fun el => !el.isUnfilled := by
        rw [← List.filter_append, List.singleton_append]
      simp only [reduced, followed, he, orderedHead, ho, orderedTerms_eq, Option.isSome_none,
        Bool.false_eq_true, if_false, happ, List.mapM_append]
      cases ([head].filter fun el => !el.isUnfilled).mapM f with
      | none => rfl
      | some rs => cases (els.filter fun el => !el.isUnfilled).mapM f <;> rfl

theorem reduced_ne_none (hf : ∀ v ∈ g.followed src isText c, f v ≠ none) :
    g.reduced src isText f c ≠ none := by
  cases c with
  | list s =>
    obtain ⟨lead, -, hr⟩ := g.reduced_list src isText s
    rw [hr, Ne, Option.map_eq_none_iff]
    exact (mapM_ne_none _).2 hf
  | orderedMap p =>
    rw [reduced, Ne, Option.map_eq_none_iff]
    exact orderedMembers_ne_none fun k hk => hf _ (List.mem_map_of_mem hk)
  | map p =>
    rw [reduced, Ne, Option.map_eq_none_iff]
    refine (mapM_ne_none _).2 fun m hm => ?_
    rw [Ne, Option.map_eq_none_iff]
    exact hf _ (List.mem_map_of_mem hm)

theorem reduced_mono (hf : ∀ v ∈ g.followed src isText c, ∀ r, f v = some r → f' v = some r)
    (hr : g.reduced src isText f c = some r) : g.reduced src isText f' c = some r := by
  cases c with
  | list s =>
    obtain ⟨lead, -, hlist⟩ := g.reduced_list src isText s
    rw [hlist, Option.map_eq_some_iff] at hr ⊢
    obtain ⟨rs, hrs, rfl⟩ := hr
    exact ⟨rs, mapM_mono hf hrs, rfl⟩
  | orderedMap p =>
    rw [reduced, Option.map_eq_some_iff] at hr ⊢
    obtain ⟨ms, hms, rfl⟩ := hr
    exact ⟨ms, orderedMembers_mono (fun k hk => hf _ (List.mem_map_of_mem hk)) hms, rfl⟩
  | map p =>
    rw [reduced, Option.map_eq_some_iff] at hr ⊢
    obtain ⟨ms, hms, rfl⟩ := hr
    refine ⟨ms, mapM_mono (fun m hm y hy => ?_) hms, rfl⟩
    rw [Option.map_eq_some_iff] at hy ⊢
    obtain ⟨r, hr, rfl⟩ := hy
    exact ⟨r, hf _ (List.mem_map_of_mem hm) r hr, rfl⟩

/-- There is a circle in a container where there is one in a value reduced in it. -/
theorem marked_reduced (hr : g.reduced src isText f c = some r) :
    r.Marked ↔ ∃ v ∈ g.followed src isText c, ∃ r', f v = some r' ∧ r'.Marked := by
  cases c with
  | list s =>
    obtain ⟨lead, hlead, hlist⟩ := g.reduced_list src isText s
    rw [hlist, Option.map_eq_some_iff] at hr
    obtain ⟨rs, hrs, rfl⟩ := hr
    rw [Ordered.marked_list]
    constructor
    · rintro ⟨x, hx, hm⟩
      have hx' := (List.mem_append.1 hx).resolve_left fun hx => hlead x hx hm
      obtain ⟨v, hv, hf⟩ := (mem_mapM hrs).1 hx'
      exact ⟨v, hv, x, hf, hm⟩
    · rintro ⟨v, hv, r', hf, hm⟩
      exact ⟨r', List.mem_append_right _ ((mem_mapM hrs).2 ⟨v, hv, hf⟩), hm⟩
  | orderedMap p =>
    rw [reduced, Option.map_eq_some_iff] at hr
    obtain ⟨ms, hms, rfl⟩ := hr
    obtain ⟨hval, hkeys⟩ := orderedMembers_spec hms (by simp)
    simp only [List.map_nil, List.not_mem_nil, false_or] at hkeys
    rw [Ordered.marked_orderedMap, followed]
    constructor
    · rintro ⟨e, he, hm⟩
      exact ⟨_, List.mem_map_of_mem ((hkeys e.1).1 (List.mem_map_of_mem he)), e.2, hval e he, hm⟩
    · rintro ⟨v, hv, r', hf, hm⟩
      obtain ⟨k, hk, rfl⟩ := List.mem_map.1 hv
      obtain ⟨e, he, rfl⟩ := List.mem_map.1 ((hkeys k).2 hk)
      obtain rfl := Option.some.inj ((hval e he).symm.trans hf)
      exact ⟨e, he, hm⟩
  | map p =>
    rw [reduced, Option.map_eq_some_iff] at hr
    obtain ⟨ms, hms, rfl⟩ := hr
    rw [Ordered.marked_map, followed]
    constructor
    · rintro ⟨e, he, hm⟩
      obtain ⟨m, hmem, hfm⟩ := (mem_mapM hms).1 he
      obtain ⟨r', hr', rfl⟩ := Option.map_eq_some_iff.1 hfm
      exact ⟨_, List.mem_map_of_mem hmem, r', hr', hm⟩
    · rintro ⟨v, hv, r', hf, hm⟩
      obtain ⟨m, hmem, rfl⟩ := List.mem_map.1 hv
      exact ⟨(m.1, r'), (mem_mapM hms).2 ⟨m, hmem, by simp [hf]⟩, hm⟩

end Reduced

section Walked

variable {g src isText} {c : Container} {opened : List Container} {v : Any α} {r : Ordered α} {fuel : ℕ}

theorem mem_next {c' : Container} :
    c' ∈ g.next src isText c ↔ ∃ v ∈ g.followed src isText c, g.opens v = some c' := List.mem_filterMap

theorem simplifyValue_mono {f f' : Container → Option (Ordered α)}
    (h : ∀ c, g.opens v = some c → ∀ r, f c = some r → f' c = some r)
    (hr : g.simplifyValue f v = some r) : g.simplifyValue f' v = some r := by
  unfold simplifyValue at hr ⊢
  cases hc : g.opens v with
  | none => rwa [hc] at hr
  | some c =>
    rw [hc] at hr
    exact h c hc r hr

/-- More fuel changes no result. -/
theorem container_mono {fuel' : ℕ} (hle : fuel ≤ fuel')
    (h : g.container src isText fuel opened c = some r) : g.container src isText fuel' opened c = some r := by
  induction fuel generalizing opened c fuel' r with
  | zero => cases h
  | succ fuel ih =>
    obtain ⟨fuel', rfl⟩ := Nat.exists_eq_add_of_le' hle
    rw [← Nat.add_assoc, container] at *
    split_ifs at h ⊢ with hon
    · exact h
    · refine reduced_mono (fun v _ r => simplifyValue_mono fun c _ r => ih (Nat.le_add_left fuel fuel')) h

/-- Where the walk sees no container twice the account changes nothing. -/
theorem unguarded_of_container (hsees : ¬ Sees (g.next src isText) opened c)
    (h : g.container src isText fuel opened c = some r) : g.unguarded src isText fuel c = some r := by
  induction fuel generalizing opened c r with
  | zero => cases h
  | succ fuel ih =>
    have hon : c ∉ opened := fun hc => hsees (sees_of_mem hc)
    rw [container, if_neg hon] at h
    refine reduced_mono (fun v hv r => simplifyValue_mono fun c' hc' r => ih fun hs => ?_) h
    exact hsees ((sees_iff hon).2 ⟨c', mem_next.2 ⟨v, hv, hc'⟩, hs⟩)

theorem bare_not_marked : ¬ (bare v).Marked := by
  cases v with
  | listRef p | orderedMap p =>
    cases p <;>
    · rintro ⟨⟩
      try contradiction
  | _ =>
    rintro ⟨⟩
    try contradiction

theorem marked_simplifyValue {f : Container → Option (Ordered α)} (hr : g.simplifyValue f v = some r) :
    r.Marked ↔ ∃ c, g.opens v = some c ∧ ∃ r', f c = some r' ∧ r'.Marked := by
  unfold simplifyValue at hr
  cases hc : g.opens v with
  | none =>
    rw [hc] at hr
    cases hr
    simp [bare_not_marked]
  | some c =>
    rw [hc] at hr
    simp [show f c = some r from hr]

theorem mem_values_of_mem_followed {v : Any α} (hv : v ∈ g.followed src isText c) : v ∈ g.values := by
  cases c with
  | list s =>
    refine mem_values_of_mem_elements g (s := s) ?_
    rw [followed] at hv
    split at hv
    · cases hv
    next head els he =>
      rw [he]
      have hv := List.mem_of_mem_filter hv
      split_ifs at hv
      · exact List.mem_cons_of_mem _ hv
      · exact hv
  | orderedMap p =>
    obtain ⟨k, -, rfl⟩ := List.mem_map.1 hv
    exact mem_values_of_val g p k
  | map p =>
    obtain ⟨m, hm, rfl⟩ := List.mem_map.1 hv
    exact mem_values_of_mem_map g hm

theorem mem_containers_of_next {c' : Container} (h : c' ∈ g.next src isText c) :
    c' ∈ g.containers v := by
  obtain ⟨w, hw, hc'⟩ := mem_next.1 h
  exact List.mem_filterMap.2 ⟨w, List.mem_cons_of_mem v (mem_values_of_mem_followed hw), hc'⟩

/-- The walk of a container comes to an end, and puts a circle where it sees a container twice. -/
theorem container_spec (hc : c ∈ g.containers v)
    (hfuel : ((g.containers v).toFinset \ opened.toFinset).card < fuel) :
    ∃ r, g.container src isText fuel opened c = some r ∧ (r.Marked ↔ Sees (g.next src isText) opened c) := by
  have hnext (c : Container) (_ : c ∈ g.containers v) : ∀ c' ∈ g.next src isText c, c' ∈ g.containers v :=
    fun _ => mem_containers_of_next
  refine fuel_induction (motive := fun fuel opened c => ∃ r, g.container src isText fuel opened c = some r ∧
    (r.Marked ↔ Sees (g.next src isText) opened c)) (fun _ => List.mem_toFinset.2) hnext ?_ fuel opened c hc hfuel
  intro fuel opened c _ ih
  rw [container]
  split_ifs with hon
  · exact ⟨_, rfl, fun _ => sees_of_mem hon, fun _ => .circle⟩
  · have hbelow (v) (hv : v ∈ g.followed src isText c) :
        g.simplifyValue (g.container src isText fuel (c :: opened)) v ≠ none := by
      unfold simplifyValue
      cases ho : g.opens v with
      | none => simp
      | some c' =>
        obtain ⟨r, hr, -⟩ := ih hon c' (mem_next.2 ⟨v, hv, ho⟩)
        simp [hr]
    obtain ⟨r, hr⟩ := Option.ne_none_iff_exists'.1 (reduced_ne_none hbelow)
    refine ⟨r, hr, ?_⟩
    rw [marked_reduced hr, sees_iff hon]
    constructor
    · rintro ⟨v, hv, r', hr', hm⟩
      obtain ⟨c', ho, r', hc', hm⟩ := (marked_simplifyValue hr').1 hm
      obtain ⟨r'', hr'', hs⟩ := ih hon c' (mem_next.2 ⟨v, hv, ho⟩)
      obtain rfl := Option.some.inj (hc'.symm.trans hr'')
      exact ⟨c', mem_next.2 ⟨v, hv, ho⟩, hs.1 hm⟩
    · rintro ⟨c', hc', hs⟩
      obtain ⟨v, hv, ho⟩ := mem_next.1 hc'
      obtain ⟨r', hr', hm⟩ := ih hon c' hc'
      exact ⟨v, hv, r', by rw [simplifyValue, ho]; exact hr', hm.2 hs⟩

variable (g src isText v) in
/-- The walk ends, and its result has a circle where a container holds itself. -/
theorem simplifyOrdered_ends : ∃ r,
    (∀ fuel, (g.containers v).length < fuel → g.simplifyOrdered src isText fuel v = some r) ∧
      (r.Marked ↔ g.Circular src isText v) := by
  have hends (c) (hc : g.opens v = some c) : ∃ r, (∀ fuel, (g.containers v).length < fuel →
      g.container src isText fuel [] c = some r) ∧ (r.Marked ↔ Sees (g.next src isText) [] c) := by
    have hmem : c ∈ g.containers v := List.mem_filterMap.2 ⟨v, List.mem_cons_self, hc⟩
    have hcard : ((g.containers v).toFinset \ ([] : List Container).toFinset).card <
        (g.containers v).length + 1 := by
      rw [List.toFinset_nil, Finset.sdiff_empty]
      exact Nat.lt_succ_of_le (List.toFinset_card_le _)
    obtain ⟨r, hr, hm⟩ := container_spec hmem hcard
    exact ⟨r, fun fuel hfuel => container_mono hfuel hr, hm⟩
  unfold simplifyOrdered simplifyValue Circular
  cases ho : g.opens v with
  | none => exact ⟨bare v, fun _ _ => rfl, by simp [bare_not_marked]⟩
  | some c =>
    obtain ⟨r, hr, hm⟩ := hends c ho
    exact ⟨r, hr, by simpa [sees_nil] using hm⟩

/-- Where no container holds itself the account makes no difference. -/
theorem unguarded_of_simplifyOrdered (hcirc : ¬ g.Circular src isText v)
    (hr : g.simplifyOrdered src isText fuel v = some r) :
    g.simplifyValue (g.unguarded src isText fuel) v = some r := by
  unfold simplifyOrdered simplifyValue at hr
  unfold simplifyValue
  cases ho : g.opens v with
  | none => rwa [ho] at hr
  | some c =>
    rw [ho] at hr
    exact unguarded_of_container (fun hs => hcirc ⟨c, ho, sees_nil.1 hs⟩) hr

variable (g src isText v) in
/-- `SimplifyOrdered` comes to an end on every value.  Its result has a circle exactly where a container
holds itself, and without one it is the result of the recursion that keeps no account, at every depth
from the number of containers on. -/
theorem simplifyOrdered_spec : ∃ r,
    (∀ fuel, (g.containers v).length < fuel → g.simplifyOrdered src isText fuel v = some r) ∧
      (r.Marked ↔ g.Circular src isText v) ∧
      (¬ g.Circular src isText v → ∀ fuel, (g.containers v).length < fuel →
        g.simplifyValue (g.unguarded src isText fuel) v = some r) := by
  obtain ⟨r, hr, hm⟩ := g.simplifyOrdered_ends src isText v
  exact ⟨r, hr, hm, fun hcirc fuel hfuel => unguarded_of_simplifyOrdered hcirc (hr fuel hfuel)⟩

end Walked

end TabnasExpr.Go.Graph

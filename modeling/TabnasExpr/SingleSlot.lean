import TabnasExpr.Go.Drive
import TabnasExpr.Lib.Walk

/-!
# The one slot that is open in the Go port

The boxes of a Go expression have their slots from the start, and `fillNextSlot` looks for the
unfilled one below the root box.  While an operand is due there is exactly one below the root, the
last slot of the box `prattify` handed back (`OpenAt`), so that is the slot it fills; between
operands there is none (`Finished`).
-/

namespace TabnasExpr.Go

open Walk Relation

universe u

variable {α : Type u} {h h' : Heap α} {i j root out : ℕ} {op : Op} {v : Val α}

/-! ## The boxes below a box -/

/-- The box an element refers to. -/
def Slot.box? : Slot α → Option ℕ
  | .val (.node j) => some j
  | _ => none

/-- The boxes among the elements of a box. -/
def kids (h : Heap α) (i : ℕ) : List ℕ :=
  match h.cell i with
  | some b => b.slots.filterMap Slot.box?
  | none => []

/-- The boxes `fillNextSlot` goes to from a box. -/
def operands (h : Heap α) (i : ℕ) : List ℕ :=
  match h.cell i with
  | some ⟨some op, slots⟩ => (slots.take op.terms).filterMap Slot.box?
  | _ => []

/-- A box has an unfilled slot. -/
def HasUnfilled (h : Heap α) (i : ℕ) : Prop := ∃ b, h.cell i = some b ∧ .unfilled ∈ b.slots

/-- An operator other than a paren has a slot for each of its terms. -/
def Box.Sized (b : Box α) : Prop :=
  ∀ op, b.op = some op → op.kind ≠ .parenOp → op.terms ≤ b.slots.length

/-- The boxes at and below a box are there, with their slots, and none is below itself. -/
structure Sound (h : Heap α) (root : ℕ) : Prop where
  live : ∀ i, Reaches (kids h) root i → ∃ b, h.cell i = some b ∧ b.Sized
  ends : Ends (kids h) root

/-- A finished value: a plain one, or a box with no slot unfilled at or below it. -/
def Finished (h : Heap α) : Val α → Prop
  | .node root => Sound h root ∧ ∀ i, Reaches (kids h) root i → ¬ HasUnfilled h i
  | _ => True

/-- Below the root box one slot is unfilled: the last one of the box `out`. -/
structure OpenAt (h : Heap α) (root out : ℕ) : Prop where
  sound : Sound h root
  head : ∃ q, opOf h root = some q ∧ q.kind ≠ .parenOp
  reached : Reaches (operands h) root out
  last : ∃ op vs, h.cell out = some ⟨some op, vs ++ [.unfilled]⟩ ∧ .unfilled ∉ vs ∧
    vs.length + 1 = op.terms
  only : ∀ i, Reaches (kids h) root i → HasUnfilled h i → i = out

section Kids

theorem kids_of_cell {b : Box α} (hb : h.cell i = some b) : kids h i = b.slots.filterMap Slot.box? := by
  simp [kids, hb]

theorem operands_of_cell {slots : List (Slot α)} (hb : h.cell i = some ⟨some op, slots⟩) :
    operands h i = (slots.take op.terms).filterMap Slot.box? := by
  simp [operands, hb]

theorem kids_congr (hc : h'.cell i = h.cell i) : kids h' i = kids h i := by
  rw [kids, kids, hc]

theorem operands_congr (hc : h'.cell i = h.cell i) : operands h' i = operands h i := by
  rw [operands, operands, hc]

theorem mem_kids_of_mem_operands (hj : j ∈ operands h i) : j ∈ kids h i := by
  unfold operands at hj
  split at hj
  · next op slots hb =>
    rw [kids_of_cell hb]
    exact (List.take_sublist _ _).filterMap _ |>.subset hj
  · cases hj

theorem reaches_kids (hr : Reaches (operands h) i j) : Reaches (Go.kids h) i j :=
  ReflTransGen.mono (fun _ _ hb => mem_kids_of_mem_operands hb) _ _ hr

theorem Sound.of_reaches (hs : Sound h root) (hi : Reaches (Go.kids h) root i) : Sound h i where
  live j hj := hs.live j (hi.trans hj)
  ends := by
    induction hi with
    | refl => exact hs.ends
    | tail _ hbc ih => exact ih.inv hbc

theorem Sound.not_below (hs : Sound h root) (hi : Reaches (Go.kids h) root i) :
    ¬ Below (Go.kids h) i i :=
  fun hii => not_loop_of_acc hs.ends ⟨i, hi, hii⟩

/-- The boxes at and below the root are as they were. -/
theorem reaches_congr (hc : ∀ i, Reaches (Go.kids h) root i → h'.cell i = h.cell i) :
    Reaches (Go.kids h') root i ↔ Reaches (Go.kids h) root i := by
  constructor
  · exact fun hr => hr.of_agree fun c hc' d hd => by rwa [kids_congr (hc c hc')] at hd
  · intro hr
    induction hr with
    | refl => exact .refl
    | tail hab hbc ih => exact ih.tail (by rw [Walk.Holds, kids_congr (hc _ hab)]; exact hbc)

end Kids

/-! ## What `fillNextSlot` finds -/

/-- A slot `fillNextSlot` takes in a box. -/
def OpenSlot (h : Heap α) (i : ℕ) : Prop :=
  ∃ op slots, h.cell i = some ⟨some op, slots⟩ ∧ .unfilled ∈ slots.take op.terms

theorem OpenSlot.hasUnfilled (ho : OpenSlot h i) : HasUnfilled h i := by
  obtain ⟨op, slots, hb, hm⟩ := ho
  exact ⟨_, hb, List.mem_of_mem_take hm⟩

/-- The heap with the first open slot of a box filled. -/
def fillBox (h : Heap α) (i : ℕ) (v : Slot α) : Heap α :=
  h.modify i fun b => { b with slots := fillFirst v b.slots }

/-- A walk of some boxes marks them, and with each box it marks the boxes it goes to, none of them
with an open slot; or it fills an open slot at or below one of them. -/
def Walks (h : Heap α) (v : Slot α) (seen is : List ℕ) (r : Option (List ℕ ⊕ Heap α)) : Prop :=
  (∃ seen', r = some (.inl seen') ∧ seen ⊆ seen' ∧ is ⊆ seen' ∧
    ∀ j ∈ seen', j ∉ seen → ¬ OpenSlot h j ∧ operands h j ⊆ seen') ∨
  ∃ i ∈ is, ∃ j, Reaches (operands h) i j ∧ OpenSlot h j ∧ r = some (.inr (fillBox h j v))

section Walks

variable {w : Slot α} {seen : List ℕ}

theorem walks_nil : Walks h w seen [] (some (.inl seen)) :=
  .inl ⟨seen, rfl, List.Subset.refl _, List.nil_subset _, fun _ hj hn => absurd hj hn⟩

theorem Walks.cons {seen₁ is : List ℕ} {r : Option (List ℕ ⊕ Heap α)}
    (h₁ : Walks h w seen [i] (some (.inl seen₁))) (h₂ : Walks h w seen₁ is r) :
    Walks h w seen (i :: is) r := by
  rcases h₁ with ⟨_, ⟨⟩, hsub, hi, hmark⟩ | ⟨_, -, _, -, -, ⟨⟩⟩
  rcases h₂ with ⟨seen₂, rfl, hsub₂, his, hmark₂⟩ | ⟨k, hk, j, hkj, ho, rfl⟩
  · refine .inl ⟨seen₂, rfl, List.Subset.trans hsub hsub₂, ?_, fun j hj hn => ?_⟩
    · exact List.cons_subset.2 ⟨hsub₂ (hi List.mem_cons_self), his⟩
    · by_cases hj₁ : j ∈ seen₁
      · obtain ⟨ho, hops⟩ := hmark j hj₁ hn
        exact ⟨ho, List.Subset.trans hops hsub₂⟩
      · exact hmark₂ j hj hj₁
  · exact .inr ⟨k, List.mem_cons_of_mem _ hk, j, hkj, ho, rfl⟩

/-- The walk of the elements of a box. -/
theorem walks_fillSubs {fill : List ℕ → ℕ → Option (List ℕ ⊕ Heap α)} (base : List ℕ)
    {vs : List (Slot α)} (hbase : base ⊆ seen)
    (hfill : ∀ j ∈ vs.filterMap Slot.box?, ∀ seen, base ⊆ seen → Walks h w seen [j] (fill seen j)) :
    Walks h w seen (vs.filterMap Slot.box?) (fillSubs fill vs seen) := by
  induction vs generalizing seen with
  | nil => exact walks_nil
  | cons x vs ih =>
    match x with
    | .unfilled | .val .undefined | .val (.atom _) => exact ih hbase hfill
    | .val (.node j) =>
      have hj := hfill j (by simp [Slot.box?]) seen hbase
      simp only [fillSubs]
      rw [List.filterMap_cons_some (show Slot.box? (.val (.node j)) = some j from rfl)]
      rcases hj with ⟨seen₁, hr, hsub, hrest⟩ | ⟨k, hk, l, hkl, ho, hr⟩
      · rw [hr]
        refine Walks.cons (.inl ⟨seen₁, rfl, hsub, hrest⟩)
          (ih (List.Subset.trans hbase hsub) fun k hk => ?_)
        exact hfill k (List.mem_filterMap.2 (by
          obtain ⟨y, hy, hyk⟩ := List.mem_filterMap.1 hk
          exact ⟨y, List.mem_cons_of_mem _ hy, hyk⟩))
      · rw [hr]
        obtain rfl := List.mem_singleton.1 hk
        exact .inr ⟨k, List.mem_cons_self, l, hkl, ho, rfl⟩

theorem any_isUnfilled {vs : List (Slot α)} : vs.any Slot.isUnfilled = true ↔ .unfilled ∈ vs := by
  rw [List.any_eq_true]
  constructor
  · rintro ⟨x, hx, hu⟩
    cases x with
    | unfilled => exact hx
    | val => cases hu
  · exact fun hm => ⟨_, hm, rfl⟩

/-- The walk of one box. -/
theorem walks_fillNextSlotSeen (hs : Sound h root) {fuel : ℕ} (hfuel : h.last + 1 < fuel) :
    Walks h w [] [root] (fillNextSlotSeen w fuel h [] root) := by
  refine @fuel_induction _ _ (Reaches (Go.kids h) root) (Finset.range (h.last + 1)) (operands h) ?_ ?_
    (fun fuel opened i => ∀ seen, opened ⊆ seen →
      Walks h w seen [i] (fillNextSlotSeen w fuel h seen i)) ?_ fuel [] root .refl
    (by simpa using hfuel) [] (List.Subset.refl _)
  · intro i hi
    obtain ⟨b, hb, -⟩ := hs.live i hi
    exact Finset.mem_range.2 (Nat.lt_succ_of_le (Store.le_last hb))
  · exact fun i hi j hj => hi.tail (mem_kids_of_mem_operands hj)
  · intro fuel opened i hi ih seen hseen
    obtain ⟨⟨op?, slots⟩, hb, -⟩ := hs.live i hi
    simp only [fillNextSlotSeen, hb]
    split_ifs with hmem
    · refine .inl ⟨seen, rfl, List.Subset.refl _, ?_, fun j hj hn => absurd hj hn⟩
      simpa using hmem
    · cases op? with
      | none =>
        have hops : operands h i = [] := by simp [operands, hb]
        refine .inl ⟨i :: seen, rfl, List.subset_cons_self _ _, by simp, fun j hj hn => ?_⟩
        obtain rfl := (List.mem_cons.1 hj).resolve_right hn
        refine ⟨?_, by simp [hops]⟩
        rintro ⟨op, slots', hc, -⟩
        simp [hb] at hc
      | some op =>
        have hops := operands_of_cell hb
        have hsubs : Walks h w (i :: seen) (operands h i)
            (fillSubs (fillNextSlotSeen w fuel h) (slots.take op.terms) (i :: seen)) := by
          rw [hops]
          refine walks_fillSubs (i :: opened) ?_ fun j hj => ?_
          · exact List.cons_subset_cons _ hseen
          · rw [← hops] at hj
            exact ih (fun hio => hmem (hseen hio)) j hj
        simp only
        rcases hsubs with ⟨seen₁, hr, hsub, hin, hmark⟩ | ⟨k, hk, j, hkj, ho, hr⟩
        · rw [hr]
          simp only
          split_ifs with hany
          · exact .inr ⟨i, List.mem_cons_self, i, .refl, ⟨op, slots, hb, any_isUnfilled.1 hany⟩, rfl⟩
          · refine .inl ⟨seen₁, rfl, List.Subset.trans (List.subset_cons_self _ _) hsub, ?_,
              fun j hj hn => ?_⟩
            · simpa using hsub List.mem_cons_self
            · by_cases hji : j = i
              · subst hji
                refine ⟨?_, hin⟩
                rintro ⟨op', slots', hc, hu⟩
                obtain ⟨rfl, rfl⟩ : op' = op ∧ slots' = slots := by simpa [hb, eq_comm] using hc
                exact hany (any_isUnfilled.2 hu)
              · exact hmark j hj (by simp [hji, hn])
        · rw [hr]
          exact .inr ⟨i, List.mem_cons_self, j, .head hk hkj, ho, rfl⟩

/-- `fillNextSlot` fills the one slot that is open, and no other. -/
theorem OpenAt.fills (ho : OpenAt h root out) (w : Slot α) :
    fillNextSlot h (.node root) w = some (fillBox h out w, true) := by
  obtain ⟨op, vs, hc, -, hlen⟩ := ho.last
  have hopen : OpenSlot h out := ⟨op, _, hc, by simp [List.take_of_length_le, hlen]⟩
  rcases walks_fillNextSlotSeen (w := w) ho.sound (Nat.lt_succ_self (h.last + 1)) with
    ⟨seen, hr, -, hroot, hmark⟩ | ⟨i, hi, j, hij, hj, hr⟩
  · -- A walk that found no slot would have marked the box the open one is in.
    have hmem : ∀ i, Reaches (operands h) root i → i ∈ seen := by
      intro i hi
      induction hi with
      | refl => exact hroot List.mem_cons_self
      | tail _ hbc ih => exact (hmark _ ih (by simp)).2 hbc
    exact absurd hopen (hmark out (hmem out ho.reached) (by simp)).1
  · obtain rfl := List.mem_singleton.1 hi
    obtain rfl := ho.only j (reaches_kids hij) hj.hasUnfilled
    rw [fillNextSlot, hr]

end Walks

/-! ## A box changed below the root -/

section Change

/-- A box that was there, and not changed. -/
theorem Sound.change (hs : Sound h root) (hj : Reaches (Go.kids h) root j) {N : ℕ → Prop}
    (hsame : ∀ i, Reaches (Go.kids h) root i → i ≠ j → h'.cell i = h.cell i)
    (hcell : ∃ b, h'.cell j = some b ∧ b.Sized)
    (hkids : ∀ k ∈ Go.kids h' j, k ∈ Go.kids h j ∨ N k)
    (hnew : ∀ n, N n → (∃ b, h'.cell n = some b ∧ b.Sized) ∧
      ∀ k ∈ Go.kids h' n, N k ∨ k ∈ Go.kids h j)
    (hends : ∀ n, N n → (∀ c ∈ Go.kids h j, Ends (Go.kids h') c) → Ends (Go.kids h') n) :
    Sound h' root ∧ ∀ i, Reaches (Go.kids h') root i → Reaches (Go.kids h) root i ∨ N i := by
  have hreach : ∀ i, Reaches (Go.kids h') root i → Reaches (Go.kids h) root i ∨ N i := by
    intro i hi
    induction hi with
    | refl => exact .inl .refl
    | @tail b c _ hbc ih =>
      rcases ih with hb | hb
      · by_cases hbj : b = j
        · subst hbj
          exact (hkids c hbc).imp_left hb.tail
        · rw [Walk.Holds, kids_congr (hsame b hb hbj)] at hbc
          exact .inl (hb.tail hbc)
      · exact ((hnew b hb).2 c hbc).symm.imp_left hj.tail
  refine ⟨⟨fun i hi => ?_, ?_⟩, hreach⟩
  · rcases hreach i hi with hold | hn
    · by_cases hij : i = j
      · rwa [hij]
      · rw [hsame i hold hij]
        exact hs.live i hold
    · exact (hnew i hn).1
  · refine hs.ends.of_kids fun b hb c hc hold => ?_
    by_cases hbj : b = j
    · subst hbj
      exact (hkids c hc).elim (hold c) fun hn => hends c hn hold
    · rw [kids_congr (hsame b hb hbj)] at hc
      exact hold c hc

/-- The way down to the changed box is still there. -/
theorem reaches_operands_change (hr : Reaches (operands h) root j)
    (hsame : ∀ i, Reaches (Go.kids h) root i → i ≠ j → h'.cell i = h.cell i) :
    Reaches (operands h') root j := by
  suffices H : ∀ i, Reaches (operands h) i j → Reaches (Go.kids h) root i → Reaches (operands h') i j from
    H root hr .refl
  intro i hi
  induction hi using ReflTransGen.head_induction_on with
  | refl => exact fun _ => .refl
  | @head a b hab _ ih =>
    intro ha
    by_cases haj : a = j
    · rw [haj]
    · refine .head ?_ (ih (ha.tail (mem_kids_of_mem_operands hab)))
      rwa [Walk.Holds, operands_congr (hsame a ha haj)]

theorem hasUnfilled_congr (hc : h'.cell i = h.cell i) : HasUnfilled h' i ↔ HasUnfilled h i := by
  rw [HasUnfilled, HasUnfilled, hc]

theorem opOf_congr (hc : h'.cell i = h.cell i) : opOf h' i = opOf h i := by
  rw [opOf, opOf, hc]

/-- A heap in which other boxes were made. -/
def Grows (h h' : Heap α) : Prop := ∀ i, h.cell i ≠ none → h'.cell i = h.cell i

theorem Sound.same (hs : Sound h root) (hg : Grows h h') (hi : Reaches (Go.kids h) root i) :
    h'.cell i = h.cell i := by
  obtain ⟨b, hb, -⟩ := hs.live i hi
  exact hg i (by simp [hb])

theorem Sound.grow (hs : Sound h root) (hg : Grows h h') : Sound h' root where
  live i hi := by
    have hold := (reaches_congr fun i hi => hs.same hg hi).1 hi
    rw [hs.same hg hold]
    exact hs.live i hold
  ends := hs.ends.of_kids fun b hb c hc hold => by
    rw [kids_congr (hs.same hg hb)] at hc
    exact hold c hc

theorem Finished.grow (hf : Finished h v) (hg : Grows h h') : Finished h' v := by
  cases v with
  | undefined | atom => trivial
  | node root =>
    refine ⟨hf.1.grow hg, fun i hi => ?_⟩
    have hold := (reaches_congr fun i hi => hf.1.same hg hi).1 hi
    rw [hasUnfilled_congr (hf.1.same hg hold)]
    exact hf.2 i hold

theorem OpenAt.grow (ho : OpenAt h root out) (hg : Grows h h') : OpenAt h' root out where
  sound := ho.sound.grow hg
  head := by rw [opOf_congr (ho.sound.same hg .refl)]; exact ho.head
  reached := reaches_operands_change ho.reached fun i hi _ => ho.sound.same hg hi
  last := by rw [ho.sound.same hg (reaches_kids ho.reached)]; exact ho.last
  only i hi hu := by
    have hold := (reaches_congr fun i hi => ho.sound.same hg hi).1 hi
    rw [hasUnfilled_congr (ho.sound.same hg hold)] at hu
    exact ho.only i hold hu

theorem grows_alloc (h : Heap α) (b : Box α) : Grows h (h.alloc b).1 :=
  fun _ hi => Store.cell_alloc_of_ne_none hi

end Change

/-! ## Filling the slot that is open -/

section Fill

variable {w : Slot α}

theorem box_append {vs ws : List (Slot α)} :
    (vs ++ ws).filterMap Slot.box? = vs.filterMap Slot.box? ++ ws.filterMap Slot.box? :=
  List.filterMap_append

theorem not_hasUnfilled {b : Box α} (hb : h.cell i = some b) (hu : .unfilled ∉ b.slots) :
    ¬ HasUnfilled h i := by
  rintro ⟨b', hb', hm⟩
  obtain rfl : b' = b := Option.some.inj (hb'.symm.trans hb)
  exact hu hm

theorem Sound.last_ne_zero (hs : Sound h root) (hi : Reaches (Go.kids h) root i) : i ≠ h.last + 1 := by
  rintro rfl
  obtain ⟨b, hb, -⟩ := hs.live _ hi
  rw [h.cell_next] at hb
  cases hb

/-- The box with its last slot filled. -/
theorem cell_fillBox {vs : List (Slot α)} (hc : h.cell out = some ⟨some op, vs ++ [.unfilled]⟩)
    (hu : .unfilled ∉ vs) (w : Slot α) :
    (fillBox h out w).cell out = some ⟨some op, vs ++ [w]⟩ := by
  have hany : vs.any Slot.isUnfilled = false := by
    rw [Bool.eq_false_iff, ne_eq, any_isUnfilled]
    exact hu
  rw [fillBox, Store.cell_modify_self, hc, Option.map_some, fillFirst_append hany]
  rfl

theorem cell_fillBox_of_ne (hi : i ≠ out) : (fillBox h out w).cell i = h.cell i :=
  Store.cell_modify_of_ne _ hi

/-- A finished value keeps off the box with the open slot. -/
theorem Finished.ne_out (hf : Finished h (.node j)) (ho : OpenAt h root out)
    (hi : Reaches (Go.kids h) j i) : i ≠ out := by
  rintro rfl
  obtain ⟨op, vs, hc, -, -⟩ := ho.last
  exact hf.2 _ hi ⟨_, hc, by simp⟩

/-- The open slot is the last one of the box. -/
theorem OpenAt.fillBox_eq (ho : OpenAt h root out) :
    ∃ op, opOf h out = some op ∧ ∀ w, fillBox h out w = setSlot h out op.terms w := by
  obtain ⟨op, vs, hc, hu, hlen⟩ := ho.last
  refine ⟨op, by simp [opOf, hc], fun w => ?_⟩
  ext1
  · funext i
    by_cases hi : i = out
    · subst hi
      rw [cell_fillBox hc hu, setSlot, Store.cell_modify_self, hc, ← hlen]
      simp
    · rw [cell_fillBox_of_ne hi, setSlot, Store.cell_modify_of_ne _ hi]
  · rfl

/-- Once the open slot is filled with a finished value, no slot is. -/
theorem OpenAt.finished (ho : OpenAt h root out) (hf : Finished h v) :
    Finished (fillBox h out (.val v)) (.node root) := by
  obtain ⟨op, vs, hc, hu, hlen⟩ := ho.last
  have hcell := cell_fillBox hc hu (.val v)
  have hout := reaches_kids ho.reached
  -- The boxes of the value are as they were.
  have hval : ∀ j, v = .node j → ∀ i, Reaches (Go.kids h) j i →
      (fillBox h out (.val v)).cell i = h.cell i := by
    rintro j rfl i hi
    exact cell_fillBox_of_ne (hf.ne_out ho hi)
  obtain ⟨hs, hreach⟩ := ho.sound.change (N := fun i => ∃ j, v = .node j ∧ Reaches (Go.kids h) j i)
    hout (fun i _ hi => cell_fillBox_of_ne hi)
    ⟨_, hcell, fun q hq _ => by cases hq; simp [hlen]⟩
    (fun k hk => by
      rw [kids_of_cell hcell, box_append, List.mem_append] at hk
      rw [kids_of_cell hc, box_append]
      refine hk.imp (List.mem_append_left _) fun hk => ?_
      cases v with
      | undefined | atom => cases hk
      | node j =>
        obtain rfl := List.mem_singleton.1 hk
        exact ⟨_, rfl, .refl⟩)
    (fun n ⟨j, hj, hn⟩ => by
      subst hj
      rw [hval j rfl n hn]
      refine ⟨hf.1.live n hn, fun k hk => .inl ⟨j, rfl, hn.tail ?_⟩⟩
      rwa [kids_congr (hval j rfl n hn)] at hk)
    (fun n ⟨j, hj, hn⟩ _ => by
      subst hj
      refine (hf.1.of_reaches hn).ends.of_kids fun b hb c hc' hold => ?_
      rw [kids_congr (hval j rfl b (hn.trans hb))] at hc'
      exact hold c hc')
  refine ⟨hs, fun i hi => ?_⟩
  by_cases hio : i = out
  · subst hio
    exact not_hasUnfilled hcell (by simp [hu])
  · rw [hasUnfilled_congr (cell_fillBox_of_ne hio)]
    rcases hreach i hi with hold | ⟨j, rfl, hn⟩
    · exact fun hu => hio (ho.only i hold hu)
    · exact hf.2 i hn

/-- A box of a prefix operator in the open slot opens its own. -/
theorem OpenAt.nest {n : ℕ} (ho : OpenAt h root out) (hop : op.kind = .prefixOp)
    (hn : h.cell n = some ⟨some op, [.unfilled]⟩) (hnew : ¬ Reaches (Go.kids h) root n) :
    OpenAt (fillBox h out (.val (.node n))) root n := by
  obtain ⟨q, vs, hc, hu, hlen⟩ := ho.last
  have hcell := cell_fillBox hc hu (.val (.node n))
  have hout := reaches_kids ho.reached
  have hno : n ≠ out := fun e => hnew (e ▸ hout)
  have hn' : (fillBox h out (.val (.node n))).cell n = some ⟨some op, [.unfilled]⟩ := by
    rw [cell_fillBox_of_ne hno, hn]
  have hkids : Go.kids (fillBox h out (.val (.node n))) n = [] := kids_of_cell hn'
  have hterms : op.terms = 1 := by simp [Op.terms, hop]
  obtain ⟨hs, hreach⟩ := ho.sound.change (N := (· = n)) hout (fun i _ hi => cell_fillBox_of_ne hi)
    ⟨_, hcell, fun p hp _ => by cases hp; simp [hlen]⟩
    (fun k hk => by
      rw [kids_of_cell hcell, box_append, List.mem_append] at hk
      rw [kids_of_cell hc, box_append]
      exact hk.imp (List.mem_append_left _) List.mem_singleton.1)
    (fun m hm => by
      subst hm
      exact ⟨⟨_, hn', fun p hp _ => by cases hp; simp [hterms]⟩, by simp [hkids]⟩)
    (fun m hm _ => by
      subst hm
      exact ⟨_, fun b hb => by rw [Walk.Holds, hkids] at hb; cases hb⟩)
  refine ⟨hs, ?_, ?_, ⟨op, [], hn', by simp, by simp [hterms]⟩, fun i hi hiu => ?_⟩
  · obtain ⟨p, hp, hk⟩ := ho.head
    by_cases hro : root = out
    · subst hro
      refine ⟨q, by simp [opOf, hcell], ?_⟩
      have : opOf h root = some q := by simp [opOf, hc]
      rw [this] at hp
      cases hp
      exact hk
    · exact ⟨p, by rw [opOf_congr (cell_fillBox_of_ne hro), hp], hk⟩
  · refine (reaches_operands_change ho.reached fun i _ hi => cell_fillBox_of_ne hi).tail ?_
    rw [Walk.Holds, operands_of_cell hcell, List.take_of_length_le (by simp [hlen]), box_append]
    exact List.mem_append_right _ List.mem_cons_self
  · rcases hreach i hi with hold | rfl
    · by_cases hio : i = out
      · subst hio
        exact absurd hiu (not_hasUnfilled hcell (by simp [hu]))
      · rw [hasUnfilled_congr (cell_fillBox_of_ne hio)] at hiu
        exact absurd (ho.only i hold hiu) hio
    · rfl

end Fill

/-! ## Opening a slot -/

section Infix

/-- A new box over a finished value, with a slot to fill. -/
theorem openAt_alloc {vs : List (Slot α)} (hk : op.kind ≠ .parenOp) (hlen : vs.length + 1 = op.terms)
    (hvs : ∀ x ∈ vs, ∃ v, x = .val v ∧ Finished h v) :
    OpenAt (h.alloc ⟨some op, vs ++ [.unfilled]⟩).1 (h.last + 1) (h.last + 1) := by
  set h₁ := (h.alloc ⟨some op, vs ++ [.unfilled]⟩).1 with hh₁
  have hcell : h₁.cell (h.last + 1) = some ⟨some op, vs ++ [.unfilled]⟩ := h.cell_alloc_self _
  have hgrow : Grows h h₁ := grows_alloc h _
  have hu : .unfilled ∉ vs := fun hm => by
    obtain ⟨v, hv, -⟩ := hvs _ hm
    cases hv
  have hkid : ∀ k ∈ kids h₁ (h.last + 1), Finished h (.node k) := by
    intro k hk
    rw [kids_of_cell hcell, box_append, List.mem_append] at hk
    rcases hk with hk | hk
    · obtain ⟨x, hx, hxk⟩ := List.mem_filterMap.1 hk
      obtain ⟨v, rfl, hv⟩ := hvs x hx
      cases v with
      | undefined | atom => cases hxk
      | node j =>
        cases hxk
        exact hv
    · cases hk
  have hreach : ∀ i, Reaches (kids h₁) (h.last + 1) i →
      i = h.last + 1 ∨ ∃ k, Finished h (.node k) ∧ Reaches (kids h) k i := by
    intro i hi
    rcases hi.cases_head with rfl | ⟨k, hk, hki⟩
    · exact .inl rfl
    · have hf := hkid k hk
      exact .inr ⟨k, hf, (reaches_congr fun i hi => hf.1.same hgrow hi).1 hki⟩
  refine ⟨⟨fun i hi => ?_, ?_⟩, ⟨op, by simp [opOf, hcell], hk⟩, .refl, ⟨op, vs, hcell, hu, hlen⟩,
    fun i hi hiu => ?_⟩
  · rcases hreach i hi with rfl | ⟨k, hf, hki⟩
    · exact ⟨_, hcell, fun p hp _ => by cases hp; simp [hlen]⟩
    · rw [hf.1.same hgrow hki]
      exact hf.1.live i hki
  · exact ⟨_, fun k hk => ((hkid k hk).1.grow hgrow).ends⟩
  · rcases hreach i hi with rfl | ⟨k, hf, hki⟩
    · rfl
    · rw [hasUnfilled_congr (hf.1.same hgrow hki)] at hiu
      exact absurd hiu (hf.2 i hki)

variable {n : ℕ} {e : Op} {slots : List (Slot α)}

/-- `wrapExpr` opens the last slot of the box it wraps. -/
theorem Finished.wrap (hf : Finished h (.node root)) (hr : Reaches (operands h) root j)
    (hhead : ∃ q, opOf h root = some q ∧ q.kind ≠ .parenOp) (hop : op.kind = .infixOp) :
    OpenAt (wrapExpr h j op) root j := by
  have hj := reaches_kids hr
  obtain ⟨b, hb, hbs⟩ := hf.1.live j hj
  have hjn : j ≠ h.last + 1 := hf.1.last_ne_zero hj
  have hterms : op.terms = 2 := by simp [Op.terms, hop]
  have hcell : (wrapExpr h j op).cell j =
      some ⟨some op, [.val (.node (h.last + 1))] ++ [.unfilled]⟩ := by
    simp [wrapExpr, dupExpr, Store.cell_alloc_of_some hb, makeSlots_inf hop]
  have hother : ∀ i, i ≠ j → (wrapExpr h j op).cell i = (h.alloc b).1.cell i := by
    intro i hi
    simp [wrapExpr, dupExpr, hb, Store.cell_modify_of_ne _ hi]
  have hcopy : (wrapExpr h j op).cell (h.last + 1) = some b := by
    rw [hother _ hjn.symm, Store.cell_alloc_self]
  have hsame : ∀ i, Reaches (kids h) root i → i ≠ j → (wrapExpr h j op).cell i = h.cell i := by
    intro i hi hij
    rw [hother i hij]
    exact hf.1.same (grows_alloc h b) hi
  have hkids : kids (wrapExpr h j op) (h.last + 1) = kids h j := by
    rw [kids_of_cell hcopy, kids_of_cell hb]
  obtain ⟨hs, hreach⟩ := hf.1.change (N := (· = h.last + 1)) hj hsame
    ⟨_, hcell, fun p hp _ => by cases hp; simp [hterms]⟩
    (fun k hk => by
      rw [kids_of_cell hcell] at hk
      exact .inr (List.mem_singleton.1 hk))
    (fun m hm => by
      subst hm
      exact ⟨⟨b, hcopy, hbs⟩, fun k hk => .inr (by rwa [hkids] at hk)⟩)
    (fun m hm hold => by
      subst hm
      exact ⟨_, fun k hk => hold k (by rwa [Walk.Holds, hkids] at hk)⟩)
  refine ⟨hs, ?_, reaches_operands_change hr hsame, ⟨op, _, hcell, by simp, by simp [hterms]⟩,
    fun i hi hiu => ?_⟩
  · obtain ⟨q, hq, hk⟩ := hhead
    by_cases hrj : root = j
    · subst hrj
      exact ⟨op, by simp [opOf, hcell], by simp [hop]⟩
    · exact ⟨q, by rw [opOf_congr (hsame root .refl hrj), hq], hk⟩
  · by_contra hij
    rcases hreach i hi with hold | rfl
    · rw [hasUnfilled_congr (hsame i hold hij)] at hiu
      exact hf.2 i hold hiu
    · exact hf.2 j hj ⟨b, hb, by
        obtain ⟨b', hb', hm⟩ := hiu
        obtain rfl : b = b' := Option.some.inj (hcopy.symm.trans hb')
        exact hm⟩

/-- A new box over the last operand of a box opens its own last slot. -/
theorem Finished.take (hf : Finished h (.node root)) (hr : Reaches (operands h) root j)
    (hhead : ∃ q, opOf h root = some q ∧ q.kind ≠ .parenOp) (hop : op.kind = .infixOp)
    (hb : h.cell j = some ⟨some e, slots⟩) {last : Slot α} (hlast : slots[e.terms - 1]? = some last) :
    OpenAt (setSlot (makeExpr h op [last]).1 j e.terms (.val (.node (h.last + 1)))) root (h.last + 1) := by
  set h₁ := setSlot (makeExpr h op [last]).1 j e.terms (.val (.node (h.last + 1))) with hh₁
  have hj := reaches_kids hr
  have hjn : j ≠ h.last + 1 := hf.1.last_ne_zero hj
  have hterms : op.terms = 2 := by simp [Op.terms, hop]
  obtain ⟨hlt, hget⟩ := List.getElem?_eq_some_iff.1 hlast
  have hmem : last ∈ slots := hget ▸ List.getElem_mem hlt
  have hul : last ≠ .unfilled := fun e => hf.2 j hj ⟨_, hb, e ▸ hmem⟩
  have hcell : h₁.cell j = some ⟨some e, slots.set (e.terms - 1) (.val (.node (h.last + 1)))⟩ := by
    simp [hh₁, setSlot, makeExpr, Store.cell_alloc_of_some hb]
  have hnew : h₁.cell (h.last + 1) = some ⟨some op, [last] ++ [.unfilled]⟩ := by
    rw [hh₁, setSlot, Store.cell_modify_of_ne _ hjn.symm, makeExpr, Store.cell_alloc_self,
      makeSlots_inf hop]
    rfl
  have hsame : ∀ i, Reaches (kids h) root i → i ≠ j → h₁.cell i = h.cell i := by
    intro i hi hij
    rw [hh₁, setSlot, Store.cell_modify_of_ne _ hij]
    exact hf.1.same (grows_alloc h _) hi
  have hkids : ∀ k ∈ kids h₁ (h.last + 1), k ∈ kids h j := by
    intro k hk
    rw [kids_of_cell hnew, box_append, List.mem_append] at hk
    rcases hk with hk | hk
    · obtain ⟨x, hx, hxk⟩ := List.mem_filterMap.1 hk
      obtain rfl := List.mem_singleton.1 hx
      rw [kids_of_cell hb]
      exact List.mem_filterMap.2 ⟨x, hmem, hxk⟩
    · cases hk
  obtain ⟨hs, hreach⟩ := hf.1.change (N := (· = h.last + 1)) hj hsame
    ⟨_, hcell, fun p hp hpk => by
      obtain ⟨b', hb', hbs⟩ := hf.1.live j hj
      obtain rfl : b' = _ := Option.some.inj (hb'.symm.trans hb)
      simpa using hbs p hp hpk⟩
    (fun k hk => by
      rw [kids_of_cell hcell] at hk
      obtain ⟨x, hx, hxk⟩ := List.mem_filterMap.1 hk
      rcases List.mem_or_eq_of_mem_set hx with hx | rfl
      · exact .inl (by rw [kids_of_cell hb]; exact List.mem_filterMap.2 ⟨x, hx, hxk⟩)
      · cases hxk
        exact .inr rfl)
    (fun m hm => by
      subst hm
      exact ⟨⟨_, hnew, fun p hp _ => by cases hp; simp [hterms]⟩, fun k hk => .inr (hkids k hk)⟩)
    (fun m hm hold => by
      subst hm
      exact ⟨_, fun k hk => hold k (hkids k hk)⟩)
  refine ⟨hs, ?_, ?_, ⟨op, _, hnew, by simpa using hul.symm, by simp [hterms]⟩, fun i hi hiu => ?_⟩
  · obtain ⟨q, hq, hk⟩ := hhead
    by_cases hrj : root = j
    · subst hrj
      have : opOf h root = some e := by simp [opOf, hb]
      rw [this] at hq
      cases hq
      exact ⟨e, by simp [opOf, hcell], hk⟩
    · exact ⟨q, by rw [opOf_congr (hsame root .refl hrj), hq], hk⟩
  · refine (reaches_operands_change hr hsame).tail ?_
    rw [Walk.Holds, operands_of_cell hcell]
    have hpos : e.terms - 1 < e.terms :=
      Nat.sub_lt (by cases hk : e.kind <;> simp [Op.terms, hk]) one_pos
    refine List.mem_filterMap.2 ⟨.val (.node (h.last + 1)),
      List.mem_take_iff_getElem.2 ⟨e.terms - 1, ?_, ?_⟩, rfl⟩
    · simp [hpos, hlt]
    · simp
  · rcases hreach i hi with hold | rfl
    · exfalso
      by_cases hij : i = j
      · subst hij
        refine not_hasUnfilled hcell (fun hm => ?_) hiu
        rcases List.mem_or_eq_of_mem_set hm with hm | hm
        · exact hf.2 i hj ⟨_, hb, hm⟩
        · cases hm
      · rw [hasUnfilled_congr (hsame i hold hij)] at hiu
        exact hf.2 i hold hiu
    · rfl

theorem Op.one_le_terms (op : Op) : 1 ≤ op.terms := by cases hk : op.kind <;> simp [Op.terms, hk]

/-- An infix operator taken in below a root box that is no paren. -/
theorem Finished.prattifyFrom (hf : Finished h (.node root))
    (hhead : ∃ q, opOf h root = some q ∧ q.kind ≠ .parenOp) (hop : op.kind = .infixOp) :
    ∃ h' out, Go.prattifyFrom (h.last + 1) h root op = some (h', out) ∧ OpenAt h' root out := by
  refine @path_induction _ (operands h)
    (fun i => Reaches (operands h) root i ∧ ∃ q, opOf h i = some q ∧ q.kind ≠ .parenOp)
    (Finset.range (h.last + 1)) ?_ ?_
    (fun fuel i => ∃ h' out, Go.prattifyFrom fuel h i op = some (h', out) ∧ OpenAt h' root out)
    ?_ (h.last + 1) root ⟨.refl, hhead⟩ (by simp)
  · rintro i ⟨hi, -⟩
    obtain ⟨b, hb, -⟩ := hf.1.live i (reaches_kids hi)
    exact Finset.mem_range.2 (Nat.lt_succ_of_le (Store.le_last hb))
  · rintro i ⟨hi, -⟩ hii
    refine hf.1.not_below (reaches_kids hi) ?_
    exact TransGen.mono (fun _ _ hb => mem_kids_of_mem_operands hb) _ _ hii
  · rintro fuel i ⟨hi, e, he, hek⟩ ih
    obtain ⟨⟨op?, slots⟩, hb, hsized⟩ := hf.1.live i (reaches_kids hi)
    obtain rfl : op? = some e := by simpa [opOf, hb] using he
    have hlt : e.terms - 1 < slots.length := by
      have : e.terms ≤ slots.length := hsized e rfl hek
      have := Op.one_le_terms e
      omega
    have hlast : slotAt h i e.terms = some slots[e.terms - 1] := by simp [slotAt, hb, hlt]
    simp only [Go.prattifyFrom, he, if_neg hek, hop, hlast]
    split_ifs with hw
    · exact ⟨_, _, rfl, hf.wrap hi hhead hop⟩
    · cases hq : (opAtSlot h slots[e.terms - 1]).filter fun q =>
          q.2.kind ≠ .parenOp ∧ q.2.kind ≠ .ternaryOp ∧ q.2.right < op.left with
      | none =>
        exact ⟨_, _, rfl, hf.take hi hhead hop hb (List.getElem?_eq_getElem hlt)⟩
      | some q =>
        obtain ⟨sub, q⟩ := q
        obtain ⟨hat, hqk, -⟩ : opAtSlot h slots[e.terms - 1] = some (sub, q) ∧ q.kind ≠ .parenOp ∧
            q.kind ≠ .ternaryOp ∧ q.right < op.left := by
          simpa [Option.filter_eq_some_iff] using hq
        obtain ⟨hslot, hsub⟩ : slots[e.terms - 1] = .val (.node sub) ∧ opOf h sub = some q := by
          cases hx : slots[e.terms - 1] with
          | unfilled => simp [hx, opAtSlot] at hat
          | val v =>
            cases v with
            | undefined | atom => simp [hx, opAtSlot, opAt] at hat
            | node j =>
              simp only [hx, opAtSlot, opAt, Option.map_eq_some_iff, Prod.mk.injEq] at hat
              obtain ⟨q', hq', rfl, rfl⟩ := hat
              exact ⟨rfl, hq'⟩
        have hmem : sub ∈ operands h i := by
          rw [operands_of_cell hb]
          refine List.mem_filterMap.2 ⟨_, List.mem_take_iff_getElem.2 ⟨e.terms - 1, ?_, hslot⟩, rfl⟩
          have := Op.one_le_terms e
          omega
        exact ih sub hmem ⟨hi.tail hmem, q, hsub, hqk⟩

/-- After an infix operator is taken into a finished expression one slot is open, the last one of
the box handed back; the root of a paren is that box. -/
theorem Finished.prattify (hf : Finished h (.node root)) {q : Op} (hq : opOf h root = some q)
    (hop : op.kind = .infixOp) :
    ∃ h' out, Go.prattify h root op = some (h', out) ∧
      OpenAt h' (if q.kind = .parenOp then out else root) out ∧ opOf h' root ≠ none ∧
      ∀ q', opOf h' root = some q' → (q'.kind = .parenOp ↔ q.kind = .parenOp) := by
  by_cases hp : q.kind = .parenOp
  · obtain ⟨b, hb, hbs⟩ := hf.1.live root .refl
    have hbq : b.op = some q := by simpa [opOf, hb] using hq
    have hdup : Grows h (h.alloc b).1 := grows_alloc h b
    have hcopy : (h.alloc b).1.cell (h.last + 1) = some b := h.cell_alloc_self b
    -- The copy is as finished as the paren is.
    have hkids : kids (h.alloc b).1 (h.last + 1) = kids h root := by
      rw [kids_of_cell hcopy, kids_of_cell hb]
    have hkid : ∀ k ∈ kids h root, Finished (h.alloc b).1 (.node k) := fun k hk =>
      Finished.grow (v := .node k) ⟨hf.1.of_reaches (.single hk), fun i hi => hf.2 i (.head hk hi)⟩ hdup
    have hfin : Finished (h.alloc b).1 (.node (h.last + 1)) := by
      refine ⟨⟨fun i hi => ?_, ?_⟩, fun i hi => ?_⟩
      · rcases hi.cases_head with rfl | ⟨k, hk, hki⟩
        · exact ⟨b, hcopy, hbs⟩
        · rw [Walk.Holds, hkids] at hk
          exact (hkid k hk).1.live i hki
      · exact ⟨_, fun k hk => (hkid k (by rwa [Walk.Holds, hkids] at hk)).1.ends⟩
      · rcases hi.cases_head with rfl | ⟨k, hk, hki⟩
        · refine not_hasUnfilled hcopy fun hm => hf.2 root .refl ⟨b, hb, hm⟩
        · rw [Walk.Holds, hkids] at hk
          exact (hkid k hk).2 i hki
    have hopen : OpenAt ((h.alloc b).1.alloc ⟨some op, [.val (.node (h.last + 1))] ++ [.unfilled]⟩).1
        ((h.alloc b).1.last + 1) ((h.alloc b).1.last + 1) :=
      openAt_alloc (by simp [hop]) (by simp [Op.terms, hop]) fun x hx =>
        ⟨_, List.mem_singleton.1 hx, hfin⟩
    have hroot : opOf ((h.alloc b).1.alloc ⟨some op, [.val (.node (h.last + 1))] ++ [.unfilled]⟩).1 root
        = some q := by
      rw [opOf_congr (Store.cell_alloc_of_ne_none (by rw [hdup root (by simp [hb])]; simp [hb])),
        opOf_congr (hdup root (by simp [hb])), hq]
    refine ⟨((h.alloc b).1.alloc ⟨some op, [.val (.node (h.last + 1))] ++ [.unfilled]⟩).1,
      h.last + 1 + 1, ?_, ?_, by rw [hroot]; simp, fun q' hq' => ?_⟩
    · simp [Go.prattify, Go.prattifyFrom, hq, hp, dupExpr, hb, makeExpr, makeSlots_inf hop]
      rfl
    · rw [if_pos hp]
      exact hopen
    · rw [hroot] at hq'
      cases hq'
      rfl
  · obtain ⟨h', out, hr, ho⟩ := hf.prattifyFrom ⟨q, hq, hp⟩ hop
    obtain ⟨q', hq', hk'⟩ := ho.head
    refine ⟨h', out, hr, ?_, by simp [hq'], fun q'' hq'' => ?_⟩
    · rwa [if_neg hp]
    · rw [hq'] at hq''
      cases hq''
      exact iff_of_false hk' hp

/-- A prefix operator taken into the open slot opens the slot of its own box, which is handed back. -/
theorem OpenAt.prattify (ho : OpenAt h root out) (hop : op.kind = .prefixOp) :
    ∃ h' n, Go.prattify h root op = some (h', n) ∧ OpenAt h' root n := by
  obtain ⟨q, hq, hk⟩ := ho.head
  have hgrow : Grows h (makeExpr h op []).1 := grows_alloc h _
  have hmake : (makeExpr h op []).1.cell (h.last + 1) = some ⟨some op, [.unfilled]⟩ := by
    rw [makeExpr, Store.cell_alloc_self, makeSlots_pre hop]
  have ho' := ho.grow hgrow
  have hnew : ¬ Reaches (kids (makeExpr h op []).1) root (h.last + 1) := by
    intro hi
    have hold := (reaches_congr fun i hi => ho.sound.same hgrow hi).1 hi
    exact ho.sound.last_ne_zero hold rfl
  refine ⟨_, h.last + 1, ?_, ho'.nest hop hmake hnew⟩
  simp only [Go.prattify, Go.prattifyFrom, hq, if_neg hk, hop]
  rw [show (makeExpr h op []).2 = h.last + 1 from rfl, ho'.fills]

end Infix

/-! ## Runs -/

/-- What a run has read so far. -/
inductive Phase where
  | blank
  /-- An operand is due, after `prattify` handed back this box. -/
  | due (out : ℕ)
  | complete

/-- Runs over infix operators after a complete expression, and over prefix operators and finished
operands where an operand is due.  Between two tokens other rules may make boxes of their own. -/
inductive Runs : Run α → Phase → Prop
  | start (h : Heap α) : Runs (Run.start h) .blank
  | grow {r : Run α} {ph : Phase} (h' : Heap α) (hr : Runs r ph) (hg : Grows r.heap h') :
      Runs ⟨h', r.root⟩ ph
  | prefixFirst {r r' : Run α} (op : Op) (hr : Runs r .blank) (hop : op.kind = .prefixOp)
      (hs : r.step (.pre op) = some r') : Runs r' (.due (r.heap.last + 1))
  | prefixMore {r r' : Run α} {i root out : ℕ} {h' : Heap α} (op : Op) (hr : Runs r (.due i))
      (hop : op.kind = .prefixOp) (hroot : r.root = .node root)
      (hp : prattify r.heap root op = some (h', out)) (hs : r.step (.pre op) = some r') :
      Runs r' (.due out)
  | operandFirst {r r' : Run α} (v : Val α) (hr : Runs r .blank) (hv : Finished r.heap v)
      (hs : r.step (.leaf v) = some r') : Runs r' .complete
  | operand {r r' : Run α} {i : ℕ} (v : Val α) (hr : Runs r (.due i)) (hv : Finished r.heap v)
      (hs : r.step (.leaf v) = some r') : Runs r' .complete
  | infixFirst {r r' : Run α} (op : Op) (hr : Runs r .complete) (hop : op.kind = .infixOp)
      (hroot : opAt r.heap r.root = none) (hs : r.step (.inf op) = some r') :
      Runs r' (.due (r.heap.last + 1))
  | infixMore {r r' : Run α} {root out : ℕ} {h' : Heap α} (op : Op) (hr : Runs r .complete)
      (hop : op.kind = .infixOp) (hroot : r.root = .node root) (hq : opOf r.heap root ≠ none)
      (hp : prattify r.heap root op = some (h', out)) (hs : r.step (.inf op) = some r') :
      Runs r' (.due out)

/-- While an operand is due, one slot is unfilled below the root box, the last slot of the box
handed back, and it is the one `fillNextSlot` fills, whatever the operand; after an operand no slot
is unfilled. -/
def Slots (r : Run α) : Phase → Prop
  | .blank => r.root = .undefined
  | .due out => ∃ root op, r.root = .node root ∧ OpenAt r.heap root out ∧ opOf r.heap out = some op ∧
      ∀ v, fillNextSlot r.heap r.root v = some (setSlot r.heap out op.terms v, true)
  | .complete => Finished r.heap r.root

/-- The step at the next token goes through. -/
def Proceeds (r : Run α) : Phase → Prop
  | .blank => (∀ op, op.kind = .prefixOp → (r.step (.pre op)).isSome) ∧ ∀ v, (r.step (.leaf v)).isSome
  | .due _ => (∀ op, op.kind = .prefixOp → (r.step (.pre op)).isSome) ∧ ∀ v, (r.step (.leaf v)).isSome
  | .complete => ∀ op, op.kind = .infixOp → (r.step (.inf op)).isSome

section Runs

variable {r r' : Run α} {ph : Phase}

theorem OpenAt.slots (ho : OpenAt h root out) : Slots ⟨h, .node root⟩ (.due out) := by
  obtain ⟨op, hop, hfill⟩ := ho.fillBox_eq
  exact ⟨root, op, rfl, ho, hop, fun v => by rw [← hfill, ho.fills]⟩

theorem OpenAt.opAt (ho : OpenAt h root out) : ∃ q, Go.opAt h (.node root) = some (root, q) := by
  obtain ⟨q, hq, -⟩ := ho.head
  exact ⟨q, by simp [Go.opAt, hq]⟩

/-- A plain value, or a box that is no expression, under a new operator. -/
theorem slots_prior {vs : List (Slot α)} (hk : op.kind ≠ .parenOp) (hlen : vs.length + 1 = op.terms)
    (hvs : ∀ x ∈ vs, ∃ v, x = .val v ∧ Finished r.heap v) :
    Slots (r.prior op vs) (.due (r.heap.last + 1)) := by
  have hmake : makeSlots op vs = vs ++ [.unfilled] := by
    rw [makeSlots, ← hlen]
    simp
  have ho := openAt_alloc (h := r.heap) hk hlen hvs
  rw [← hmake] at ho
  exact ho.slots

/-- What holds of the slots in every state a run comes to. -/
theorem Runs.slots (hr : Runs r ph) : Slots r ph := by
  induction hr with
  | start h => rfl
  | @grow r ph h' _ hg ih =>
    cases ph with
    | blank => exact ih
    | complete => exact Finished.grow ih hg
    | due out =>
      obtain ⟨root, _, hroot, ho, -⟩ := ih
      rw [hroot]
      exact (ho.grow hg).slots
  | @prefixFirst r r' op _ hop hs ih =>
    have ih : r.root = .undefined := ih
    simp only [Run.step, ih, Go.opAt, Option.some.injEq] at hs
    subst hs
    exact slots_prior (by simp [hop]) (by simp [Op.terms, hop]) (by simp)
  | @prefixMore r r' i root out h' op _ hop hroot hp hs ih =>
    obtain ⟨root', _, hroot', ho, -⟩ := ih
    obtain rfl : root = root' := Val.node.inj (hroot.symm.trans hroot')
    obtain ⟨q, hq⟩ := ho.opAt
    obtain ⟨h₁, n, hp₁, ho₁⟩ := ho.prattify hop
    rw [hp] at hp₁
    cases hp₁
    simp only [Run.step, hroot, hq, hp, Option.map_some, Option.some.injEq] at hs
    subst hs
    exact ho₁.slots
  | @operandFirst r r' v _ hv hs ih =>
    have ih : r.root = .undefined := ih
    simp only [Run.step, ih, Go.opAt, Option.some.injEq] at hs
    subst hs
    exact hv
  | @operand r r' i v _ hv hs ih =>
    obtain ⟨root, op, hroot, ho, hop, hfill⟩ := ih
    obtain ⟨q, hq⟩ := ho.opAt
    rw [← hroot] at hq
    simp only [Run.step, hq, hfill, Option.map_some, Option.some.injEq] at hs
    subst hs
    obtain ⟨op', hop', hbox⟩ := ho.fillBox_eq
    obtain rfl : op = op' := Option.some.inj (hop.symm.trans hop')
    have := ho.finished hv
    rwa [← hroot, hbox] at this
  | @infixFirst r r' op _ hop hroot hs ih =>
    simp only [Run.step, hroot, Option.some.injEq] at hs
    subst hs
    exact slots_prior (by simp [hop]) (by simp [Op.terms, hop]) fun x hx =>
      ⟨r.root, List.mem_singleton.1 hx, ih⟩
  | @infixMore r r' root out h' op _ hop hroot hq hp hs ih =>
    obtain ⟨q, hq⟩ := Option.ne_none_iff_exists'.1 hq
    rw [Slots, hroot] at ih
    obtain ⟨h₁, n, hp₁, ho₁, hne, hkind⟩ := ih.prattify hq hop
    rw [hp] at hp₁
    cases hp₁
    obtain ⟨q', hq'⟩ := Option.ne_none_iff_exists'.1 hne
    have hat : Go.opAt r.heap r.root = some (root, q) := by simp [hroot, Go.opAt, hq]
    simp only [Run.step, hat, hp, Option.map_some, hq', Option.some.injEq] at hs
    subst hs
    by_cases hk : q.kind = .parenOp
    · rw [if_pos ((hkind q' hq').2 hk)]
      rw [if_pos hk] at ho₁
      exact ho₁.slots
    · rw [if_neg fun h => hk ((hkind q' hq').1 h)]
      rw [if_neg hk] at ho₁
      exact ho₁.slots

/-- Every run goes on. -/
theorem Slots.proceeds (hs : Slots r ph) : Proceeds r ph := by
  cases ph with
  | blank =>
    have hroot : r.root = .undefined := hs
    exact ⟨fun op _ => by simp [Run.step, hroot, Go.opAt], fun v => by simp [Run.step, hroot, Go.opAt]⟩
  | due out =>
    obtain ⟨root, op, hroot, ho, -, hfill⟩ := hs
    obtain ⟨q, hq⟩ := ho.opAt
    rw [← hroot] at hq
    refine ⟨fun op hop => ?_, fun v => by simp [Run.step, hq, hfill]⟩
    obtain ⟨h₁, n, hp, -⟩ := ho.prattify hop
    simp [Run.step, hq, hp]
  | complete =>
    intro op hop
    cases hat : Go.opAt r.heap r.root with
    | none => simp [Run.step, hat]
    | some q =>
      obtain ⟨root, q⟩ := q
      obtain ⟨hroot, hq⟩ : r.root = .node root ∧ opOf r.heap root = some q := by
        cases hr : r.root with
        | undefined | atom => simp [hr, Go.opAt] at hat
        | node j =>
          simp only [hr, Go.opAt, Option.map_eq_some_iff, Prod.mk.injEq] at hat
          obtain ⟨q', hq', rfl, rfl⟩ := hat
          exact ⟨rfl, hq'⟩
      rw [Slots, hroot] at hs
      obtain ⟨h₁, n, hp, -⟩ := hs.prattify hq hop
      simp [Run.step, hat, hp]

/-- In every state a run comes to, the one slot that is open is the last one of the box `prattify`
handed back, `fillNextSlot` fills that one, and the run goes on. -/
theorem single_open_slot (hr : Runs r ph) : Slots r ph ∧ Proceeds r ph :=
  ⟨hr.slots, hr.slots.proceeds⟩

end Runs

/-! ### `1 + -2` -/

def plus : Op := ⟨"addition-infix", "+", .infixOp, 1, 2⟩

def minus : Op := ⟨"negative-prefix", "-", .prefixOp, minSafeInteger, 4⟩

/-- The run up to the prefix operator, after which the operand `2` is due. -/
theorem runs_minus : ∃ r : Run ℕ, Runs r (.due 2) :=
  ⟨_, .prefixMore minus
    (.infixFirst plus (.operandFirst (.atom 1) (.start Store.empty) trivial rfl) rfl rfl rfl)
    rfl rfl rfl rfl⟩

theorem single_open_slot_minus : ∃ r : Run ℕ, Slots r (.due 2) ∧ Proceeds r (.due 2) := by
  obtain ⟨r, hr⟩ := runs_minus
  exact ⟨r, single_open_slot hr⟩

end TabnasExpr.Go

import TabnasExpr.Render.Protocol
import TabnasExpr.Render.Refusal

/-!
# The object a refusal names

The markers of the render tell where in the tree it is: a list's marker counts the elements before the
one that is read, and an object's holds its key (`KnowsIn`).  So the path a refusal is reported with leads
to an object that is the first element of a list, and the source text to its last `src`
(`exprRender_names`).
-/

namespace TabnasExpr.Render

open Builder (Frame)

universe u

variable {ν : Type u}

/-! ## Positions -/

/-- A step into a container: to an element, or to the value of a key. -/
inductive Step where
  | index (i : ℕ)
  | key (k : String)
  deriving DecidableEq

def Step.isKey : Step → Bool
  | index _ => false
  | key _ => true

/-- What is at a position of a tree. -/
inductive Json.At : Json ν → List Step → Json ν → Prop where
  | here (t : Json ν) : At t [] t
  | element {xs i x p y} (hx : xs[i]? = some x) (h : At x p y) : At (.list xs) (.index i :: p) y
  | member {ms k x p y} (hx : (k, x) ∈ ms) (h : At x p y) : At (.obj ms) (.key k :: p) y

/-- A part of a path is for a step. -/
inductive Names : Step → PathPart → Prop where
  | element {i ds} (hne : ds ≠ []) (h : numberOf ds = i) : Names (.index i) (.element ds)
  | count (i : ℕ) : Names (.index i) (.count i)
  | key (k : String) : Names (.key k) (exprPathKey k)

/-- A path leads to a position: a dot is before its parts unless the first one is a key's. -/
def Leads (path : List PathPart) (p : List Step) : Prop :=
  ∃ parts, List.Forall₂ Names p parts ∧
    path = if p.head?.any Step.isKey then parts else .dot :: parts

namespace Json

variable {t y : Json ν} {q : List Step}

theorem At.append_list {xs : List (Json ν)} (h : At (.list xs) q y) (hq : q ≠ []) :
    At (.list (xs ++ [t])) q y := by
  cases h with
  | here => exact absurd rfl hq
  | element hx h =>
    refine .element ?_ h
    rw [List.getElem?_append_left (List.getElem?_eq_some_iff.1 hx).1]
    exact hx

theorem At.append_obj {ms : List (String × Json ν)} {m : String × Json ν} (h : At (.obj ms) q y)
    (hq : q ≠ []) : At (.obj (ms ++ [m])) q y := by
  cases h with
  | here => exact absurd rfl hq
  | member hx h => exact .member (List.mem_append_left _ hx) h

end Json

/-! ## Where the builder is -/

namespace Builder

/-- The step to the value that is read in a container. -/
def Frame.step : Frame ν → Option Step
  | list xs => some (.index xs.length)
  | value _ k => some (.key k)
  | key _ => none

/-- The position of the value that is read in the innermost container. -/
def position (fs : List (Frame ν)) : List Step := fs.reverse.filterMap Frame.step

theorem position_cons (f : Frame ν) (fs : List (Frame ν)) :
    position (f :: fs) = position fs ++ f.step.toList := by
  rw [position, List.reverse_cons, List.filterMap_append]
  cases h : f.step <;> simp [position, h]

/-- What was read of a container. -/
def Frame.tree : Frame ν → Json ν
  | list xs => .list xs
  | key ms | value ms _ => .obj ms

/-- A value is at a position of what was read. -/
def At : Builder ν → List Step → Json ν → Prop
  | within fs, p, y => ∃ inner f outer q, fs = inner ++ f :: outer ∧ p = position outer ++ q ∧
      q ≠ [] ∧ f.tree.At q y
  | done t, p, y => t.At p y

variable {t y : Json ν} {fs : List (Frame ν)} {f : Frame ν} {b b' : Builder ν} {p q : List Step}

theorem at_within_cons : At (within (f :: fs)) p y ↔
    (∃ q, p = position fs ++ q ∧ q ≠ [] ∧ f.tree.At q y) ∨ At (within fs) p y := by
  constructor
  · rintro ⟨inner, g, outer, q, hfs, hp, hg⟩
    cases inner with
    | nil =>
      obtain ⟨rfl, rfl⟩ := List.cons.inj hfs
      exact .inl ⟨q, hp, hg⟩
    | cons f' inner =>
      obtain ⟨rfl, rfl⟩ := List.cons.inj hfs
      exact .inr ⟨inner, g, outer, q, rfl, hp, hg⟩
  · rintro (⟨q, hp, hf⟩ | ⟨inner, g, outer, q, rfl, hp, hg⟩)
    · exact ⟨[], f, fs, q, rfl, hp, hf⟩
    · exact ⟨f :: inner, g, outer, q, rfl, hp, hg⟩

theorem not_at_nil : ¬ At (within ([] : List (Frame ν))) p y := by
  rintro ⟨inner, f, outer, q, h, -⟩
  cases inner <;> cases h

/-- A value that is complete is where it was read, and what was read before stays where it is. -/
theorem at_place (h : place t fs = some b)
    (hy : At (within fs) p y ∨ ∃ q, p = position fs ++ q ∧ t.At q y) : At b p y := by
  match fs, h with
  | [], h =>
    cases h
    rcases hy with hy | ⟨q, rfl, hq⟩
    · exact absurd hy not_at_nil
    · exact hq
  | .list xs :: fs, h =>
    cases h
    rw [at_within_cons] at hy ⊢
    rcases hy with (⟨q, hp, hq, hy⟩ | hy) | ⟨q, rfl, hy⟩
    · exact .inl ⟨q, hp, hq, hy.append_list hq⟩
    · exact .inr hy
    · refine .inl ⟨.index xs.length :: q, by simp [position_cons, Frame.step], by simp, .element ?_ hy⟩
      simp
  | .value ms k :: fs, h =>
    cases h
    rw [at_within_cons] at hy ⊢
    rcases hy with (⟨q, hp, hq, hy⟩ | hy) | ⟨q, rfl, hy⟩
    · exact .inl ⟨q, hp, hq, hy.append_obj hq⟩
    · exact .inr hy
    · refine .inl ⟨.key k :: q, by simp [position_cons, Frame.step], by simp, .member ?_ hy⟩
      simp

/-- A container that ends is where it was read. -/
theorem at_close (h : place f.tree fs = some b) (hy : At (within (f :: fs)) p y) : At b p y := by
  refine at_place h ?_
  rcases at_within_cons.1 hy with ⟨q, hp, -, hy⟩ | hy
  · exact .inr ⟨q, hp, hy⟩
  · exact .inl hy

theorem at_step {event : Event ν} (h : step b event = some b') (hy : At b p y) : At b' p y := by
  cases b with
  | done t => cases h
  | within fs =>
    cases event with
    | scalar v => exact at_place h (.inl hy)
    | arrayStart | objectStart =>
      rw [step] at h
      split_ifs at h
      cases h
      exact at_within_cons.2 (.inr hy)
    | key k =>
      cases fs with
      | nil => cases h
      | cons f fs =>
        cases f with
        | key ms =>
          cases h
          exact at_within_cons.2 ((at_within_cons (f := .key ms)).1 hy)
        | list xs | value ms k' => cases h
    | arrayEnd =>
      cases fs with
      | nil => cases h
      | cons f fs =>
        cases f with
        | list xs => exact at_close (f := .list xs) h hy
        | key ms | value ms k => cases h
    | objectEnd =>
      cases fs with
      | nil => cases h
      | cons f fs =>
        cases f with
        | key ms => exact at_close (f := .key ms) h hy
        | list xs | value ms k => cases h

theorem at_run {es : List (Event ν)} (h : run b es = some b') (hy : At b p y) : At b' p y := by
  induction es generalizing b with
  | nil =>
    cases h
    exact hy
  | cons event es ih =>
    obtain ⟨b₁, hstep, hrun⟩ := Option.bind_eq_some_iff.1 h
    exact ih hrun (at_step hstep hy)

/-- An object that has been read is in the tree where the builder was. -/
theorem at_of_objectEnd {pre rest : List (Event ν)} {ms : List (String × Json ν)}
    (hpre : run (within []) pre = some (within (.key ms :: fs)))
    (ht : t.events = pre ++ .objectEnd :: rest) : t.At (position fs) (.obj ms) := by
  have hrun := run_eq_done_iff.2 ht.symm
  rw [run_append, hpre, Option.bind_some] at hrun
  obtain ⟨b, hplace, hrun⟩ := Option.bind_eq_some_iff.1 hrun
  have hat : At b (position fs) (.obj ms) :=
    at_place hplace (.inr ⟨[], (List.append_nil _).symm, .here _⟩)
  exact at_run hrun hat

end Builder

/-! ## What the markers tell -/

section Markers

variable [Zero ν] [DecidableEq ν]

open Json (parts)

/-- The marker of a container whose value is read. -/
inductive KnowsIn : Marker ν → Frame ν → Prop where
  | listStream {index xs} (hne : index ≠ []) (h : numberOf index = xs.length) :
    KnowsIn (.listStream index) (.list xs)
  | listFirst : KnowsIn .listFirst (.list [])
  | listHold (xs) : KnowsIn (.listHold (leadItems (xs.map Json.item))) (.list xs)
  | mapStreamAfter (ms k) : KnowsIn (.mapStreamAfter k) (.value ms k)
  | mapHoldValue (ms k) : KnowsIn (.mapHoldValue (parts ms) k) (.value ms k)

/-- The marker of a container in which no value is read. -/
inductive KnowsTop : Marker ν → Frame ν → Prop where
  | pending (mode) : KnowsTop (.pending mode) (.list [])
  | listStream {index xs} (hne : index ≠ []) (h : numberOf index + 1 = xs.length) :
    KnowsTop (.listStream index) (.list xs)
  | mapStreamFirst (ms) : KnowsTop .mapStreamFirst (.key ms)
  | mapStreamValue (ms k) : KnowsTop (.mapStreamValue k) (.value ms k)
  | mapStreamAfter (ms k) : KnowsTop (.mapStreamAfter k) (.key ms)
  | mapHoldKey (ms) : KnowsTop (.mapHoldKey (parts ms)) (.key ms)

/-- The state of a render knows what a builder has read of the containers it is in. -/
inductive Knows : State ν → Builder ν → Prop where
  | root : Knows [] (.within [])
  | done (s t) : Knows s (.done t)
  | top {m f s fs} (ht : KnowsTop m f) (hin : List.Forall₂ KnowsIn s fs) :
    Knows (m :: s) (.within (f :: fs))
  | held {s fs} (h : Held s fs) (hin : List.Forall₂ KnowsIn s fs) : Knows s (.within fs)

/-- What a step of the render leaves knows what the step of the builder leaves. -/
def Learns (tr : Transition ν) (b : Option (Builder ν)) : Prop :=
  ∀ s out b', tr = .ok (s, out) → b = some b' → Knows s b'

variable {s s' : State ν} {fs : List (Frame ν)} {b : Builder ν}

theorem learns_ok {out : List (Text ν)} (h : Knows s b) : Learns (.ok (s, out)) (some b) := by
  rintro _ _ _ ⟨⟩ ⟨⟩
  exact h

theorem learns_none (tr : Transition ν) : Learns tr none := nofun

theorem learns_error (failure : Failure ν) (b : Option (Builder ν)) : Learns (.error failure) b := nofun

theorem leadItems_concat (xs : List (Json ν)) (t : Json ν) : leadItems ((xs ++ [t]).map Json.item) =
    leadItems (xs.map Json.item) ++ [exprLead (leadItems (xs.map Json.item)) t.item] := by
  cases xs with
  | nil => rfl
  | cons x xs => simp [leadItems, exprLead]

theorem parts_concat (ms : List (String × Json ν)) (k : String) (t : Json ν) :
    parts (ms ++ [(k, t)]) = parts ms ++ [.str k :: .colon :: t.item.text] := by
  simp [Json.parts_eq_map, Json.member]

/-- A held list's marker goes on with the next element. -/
theorem KnowsIn.listHold_concat (xs : List (Json ν)) (t : Json ν) :
    KnowsIn (.listHold (leadItems (xs.map Json.item) ++ [exprLead (leadItems (xs.map Json.item)) t.item]))
      (.list (xs ++ [t])) :=
  leadItems_concat xs t ▸ .listHold (xs ++ [t])

/-- A held object's marker goes on with the next member. -/
theorem KnowsTop.mapHoldKey_concat (ms : List (String × Json ν)) (k : String) (t : Json ν) :
    KnowsTop (.mapHoldKey (parts ms ++ [.str k :: .colon :: t.item.text])) (.key (ms ++ [(k, t)])) :=
  parts_concat ms k t ▸ .mapHoldKey (ms ++ [(k, t)])

/-- A value that was written as it was read is complete. -/
theorem Streaming.knows_place (h : Streaming s fs) (hin : List.Forall₂ KnowsIn s fs) {t : Json ν}
    (hb : Builder.place t fs = some b) : Knows (settle s) b := by
  cases h with
  | root =>
    cases hb
    exact .done _ t
  | element h hi =>
    cases hb
    obtain ⟨⟨hne, hidx⟩, hin⟩ := List.forall₂_cons.1 hin
    exact .top (.listStream hne (by simp [hidx])) hin
  | member h =>
    cases hb
    obtain ⟨-, hin⟩ := List.forall₂_cons.1 hin
    exact .top (.mapStreamAfter _ _) hin

theorem Streaming.learns_closed (h : Streaming s fs) (hin : List.Forall₂ KnowsIn s fs) (t : Json ν)
    (text : Text ν) : Learns (exprClosed s text) (Builder.place t fs) := by
  rintro s' out b hok hb
  have hknows := h.knows_place hin hb
  cases h with
  | root | element | member =>
    cases hok
    exact hknows

/-- A held value is complete. -/
theorem Held.learns_holdValue (h : Held s fs) (hin : List.Forall₂ KnowsIn s fs) (t : Json ν) :
    Learns (exprHoldValue s t.item) (Builder.place t fs) := by
  cases h with
  | list h =>
    obtain ⟨hk, htail⟩ := List.forall₂_cons.1 hin
    cases hk
    exact learns_ok (.held (.list h) (.cons (.listHold_concat _ t) htail))
  | element h =>
    obtain ⟨hk, htail⟩ := List.forall₂_cons.1 hin
    cases hk
    exact learns_ok (.held (.element h) (.cons (.listHold_concat _ t) htail))
  | first h =>
    obtain ⟨hk, htail⟩ := List.forall₂_cons.1 hin
    cases hk
    exact learns_ok (.top (.mapHoldKey_concat _ _ t) htail)
  | member h =>
    obtain ⟨hk, htail⟩ := List.forall₂_cons.1 hin
    cases hk
    exact learns_ok (.top (.mapHoldKey_concat _ _ t) htail)

theorem Held.learns_held (h : Held s fs) (hin : List.Forall₂ KnowsIn s fs) (t : Json ν) :
    Learns (exprHeld s t.item) (Builder.place t fs) := by
  rw [exprHeld_of_holdsDue h.holdsDue]
  exact h.learns_holdValue hin t

theorem Streaming.learns_held (h : Streaming s fs) (hin : List.Forall₂ KnowsIn s fs) (t : Json ν) :
    Learns (exprHeld s t.item) (Builder.place t fs) := by
  have heq : exprHeld s t.item = exprClosed s t.item.text := by
    cases h <;> rfl
  rw [heq]
  exact h.learns_closed hin t _

/-- The object that led a list is complete. -/
theorem Streaming.learns_firstHeld (h : Streaming s fs) (hin : List.Forall₂ KnowsIn s fs) (t : Json ν) :
    Learns (exprHeld (.listFirst :: s) t.item) (Builder.place t (.list [] :: fs)) := by
  show Learns (exprFirstHeld (.listFirst :: s) t.item) _
  unfold exprFirstHeld
  cases t.item.head with
  | none => exact learns_ok (.top (.listStream firstIndex_ne_nil rfl) hin)
  | some o => exact learns_ok (.held (.list h) (.cons (.listHold_concat [] t) hin))

/-! ## Values where values are written as they are read -/

omit [Zero ν] [DecidableEq ν] in
/-- The next index is the number of elements that were read. -/
theorem numberOf_exprCountUp {digits next : List Digit} (h : exprCountUp digits = some next) :
    next ≠ [] ∧ numberOf next = numberOf digits + 1 := by
  rcases digits_cases digits with ⟨k, rfl⟩ | ⟨pre, d, k, hd, rfl⟩
  · cases k with
    | zero => cases h
    | succ k =>
      obtain rfl := Option.some.inj ((exprCountUp_nines k).symm.trans h)
      refine ⟨by simp, ?_⟩
      have hone := numberOf_append [] (List.replicate (k + 1) 0) 1
      have hnil : numberOf [] = 0 := rfl
      rw [numberOf_zeros, hnil, List.length_replicate] at hone
      rw [numberOf_nines]
      simpa using hone
  · obtain ⟨d', hd'⟩ := exists_exprDigitUp hd
    obtain rfl := Option.some.inj ((exprCountUp_append hd' pre k).symm.trans h)
    exact ⟨by simp, numberOf_up hd' pre k⟩

/-- A value that begins where it is written as it is read. -/
theorem learns_value {lead : Text ν} (hp : place s = some (s', lead)) (hs : Streaming s' fs)
    (hin : List.Forall₂ KnowsIn s' fs) :
    (∀ v, Learns (exprStep s (.scalar v)) (Builder.step (.within fs) (.scalar v))) ∧
      Learns (exprStep s .objectStart) (Builder.step (.within fs) .objectStart) ∧
      Learns (exprStep s .arrayStart) (Builder.step (.within fs) .arrayStart) := by
  obtain ⟨hscalar, hobject, harray⟩ := exprStep_of_place hp
  have hd : Builder.isDue fs = true := hs.isDue
  refine ⟨fun v => ?_, ?_, ?_⟩
  · obtain ⟨out, hout⟩ := exists_exprStreamValue_none hp (exprScalarText v)
    rw [hscalar, hout]
    rintro s₁ out₁ b hok hb
    cases hok
    exact hs.knows_place hin hb
  · obtain ⟨out, hout⟩ := exists_exprStreamValue_some hp [.openMap] .mapStreamFirst
    rw [hobject, hout, Builder.step, if_pos hd]
    exact learns_ok (.top (.mapStreamFirst []) hin)
  · obtain ⟨out, hout⟩ := exists_exprStreamValue_some hp [] (.pending .stream)
    rw [harray, hout, Builder.step, if_pos hd]
    exact learns_ok (.top (.pending .stream) hin)

/-- A value that begins where a held one is due. -/
theorem Held.learns_value (h : Held s fs) (hin : List.Forall₂ KnowsIn s fs) :
    (∀ v, Learns (exprStep s (.scalar v)) (Builder.step (.within fs) (.scalar v))) ∧
      Learns (exprStep s .objectStart) (Builder.step (.within fs) .objectStart) ∧
      Learns (exprStep s .arrayStart) (Builder.step (.within fs) .arrayStart) := by
  obtain ⟨hscalar, hobject, harray⟩ := exprStep_of_holdsDue h.holdsDue
  have hd : Builder.isDue fs = true := h.isDue
  refine ⟨fun v => ?_, ?_, ?_⟩
  · rw [hscalar]
    exact h.learns_holdValue hin (.scalar v)
  · rw [hobject, Builder.step, if_pos hd]
    exact learns_ok (.top (.mapHoldKey []) hin)
  · rw [harray, Builder.step, if_pos hd]
    exact learns_ok (.top (.pending .hold) hin)

/-! ## Steps -/

theorem Streaming.learns_pending (h : Streaming s fs) (hin : List.Forall₂ KnowsIn s fs)
    (event : Event ν) :
    Learns (exprStep (.pending .stream :: s) event) (Builder.step (.within (.list [] :: fs)) event) := by
  cases event with
  | scalar v =>
    cases hv : exprOp v with
    | none =>
      have hstep : exprStep (.pending .stream :: s) (.scalar v) =
          .ok (.listStream firstIndex :: s, [.openList :: exprScalarText v]) := by
        simp [exprStep, exprDue, exprFirst, exprDecide, hv, exprMark, exprValue, exprHolding,
          exprStreamValue, exprPushOrDone]
      rw [hstep]
      exact learns_ok (.top (.listStream firstIndex_ne_nil rfl) hin)
    | some o =>
      have hstep : exprStep (.pending .stream :: s) (.scalar v) =
          .ok (.listHold [exprLead [] (exprScalarItem v)] :: s, [[]]) := by
        simp [exprStep, exprDue, exprFirst, exprDecide, hv, exprMark, exprValue, exprHolding,
          exprHoldValue]
      rw [hstep]
      exact learns_ok (.held (.list h) (.cons (.listHold_concat [] (.scalar v)) hin))
  | objectStart => exact learns_ok (.top (.mapHoldKey []) (.cons .listFirst hin))
  | arrayStart =>
    exact learns_ok (.top (.pending .stream) (.cons (.listStream firstIndex_ne_nil rfl) hin))
  | arrayEnd => exact h.learns_closed hin _ _
  | key k | objectEnd => exact learns_none _

theorem Held.learns_pending (h : Held s fs) (hin : List.Forall₂ KnowsIn s fs) (event : Event ν) :
    Learns (exprStep (.pending .hold :: s) event) (Builder.step (.within (.list [] :: fs)) event) := by
  cases event with
  | scalar v => exact learns_ok (.held (.element h) (.cons (.listHold_concat [] (.scalar v)) hin))
  | objectStart => exact learns_ok (.top (.mapHoldKey []) (.cons (.listHold []) hin))
  | arrayStart => exact learns_ok (.top (.pending .hold) (.cons (.listHold []) hin))
  | arrayEnd => exact h.learns_held hin (.list [])
  | key k | objectEnd => exact learns_none _

/-- The end of a held object. -/
theorem learns_objectEnd {ms : List (String × Json ν)}
    (hend : Learns (exprHeld s (Json.obj ms).item) (Builder.place (.obj ms) fs)) :
    Learns (exprStep (.mapHoldKey (parts ms) :: s) .objectEnd)
      (Builder.step (.within (.key ms :: fs)) .objectEnd) := by
  show Learns (exprObjectEnd (.mapHoldKey (parts ms) :: s)) (Builder.place (.obj ms) fs)
  have hitem : (Json.obj ms).item = exprObject (parts ms) := rfl
  rw [hitem, exprObject] at hend
  simp only [exprObjectEnd]
  cases hsrc : exprSrcOf (parts ms) with
  | none | op o =>
    rw [hsrc] at hend
    exact hend
  | foreign src =>
    rw [hsrc] at hend
    simp only
    split_ifs
    · exact learns_error _ _
    · exact hend

/-- The end of a held list. -/
theorem learns_arrayEnd {xs : List (Json ν)}
    (hend : Learns (exprHeld s (Json.list xs).item) (Builder.place (.list xs) fs)) :
    Learns (exprStep (.listHold (leadItems (xs.map Json.item)) :: s) .arrayEnd)
      (Builder.step (.within (.list xs :: fs)) .arrayEnd) := by
  rw [Json.item, Json.items_eq_map] at hend
  exact hend

omit [Zero ν] [DecidableEq ν] in
theorem place_listStream {index : List Digit} (hi : index ≠ []) :
    ∃ next, exprCountUp index = some next ∧ ∀ s : State ν,
      place (.listStream index :: s) = some (.listStream next :: s, [.comma]) := by
  obtain ⟨next, hnext, -⟩ := exists_exprCountUp hi
  refine ⟨next, hnext, fun s => ?_⟩
  cases index with
  | nil => exact absurd rfl hi
  | cons d ds => simp [place, hnext]

theorem Knows.forall₂_of_held (hk : Knows s (.within fs)) (h : Held s fs) :
    List.Forall₂ KnowsIn s fs := by
  cases hk with
  | root => cases h
  | held _ hin => exact hin
  | top ht hin => cases h <;> cases ht

/-- An event does to what the markers know what it does to what was read. -/
theorem Simulates.learns (h : Simulates s b) (hk : Knows s b) (event : Event ν) :
    Learns (exprStep s event) (b.step event) := by
  cases h with
  | done t => exact learns_none _
  | root =>
    obtain ⟨hscalar, hobject, harray⟩ := learns_value (s := ([] : State ν)) rfl .root .nil
    cases event with
    | scalar v => exact hscalar v
    | objectStart => exact hobject
    | arrayStart => exact harray
    | key k | objectEnd | arrayEnd => exact learns_none _
  | pendingStream h =>
    cases hk with
    | top _ hin => exact h.learns_pending hin event
    | held h' => cases h'
  | pendingHold h =>
    cases hk with
    | top _ hin => exact h.learns_pending hin event
    | held h' => cases h'
  | @listStream s fs index xs h hi =>
    cases hk with
    | held h' => cases h'
    | top ht hin =>
      cases ht with
      | listStream _ hidx =>
        obtain ⟨next, hnext, hplace⟩ := place_listStream (ν := ν) hi
        obtain ⟨hne, hnum⟩ := numberOf_exprCountUp hnext
        obtain ⟨hscalar, hobject, harray⟩ := learns_value (hplace s) (.element h hne)
          (.cons (.listStream hne (hnum.trans hidx)) hin)
        cases event with
        | scalar v => exact hscalar v
        | objectStart => exact hobject
        | arrayStart => exact harray
        | arrayEnd => exact h.learns_closed hin _ _
        | key k | objectEnd => exact learns_none _
  | held h =>
    have hin := hk.forall₂_of_held h
    obtain ⟨hscalar, hobject, harray⟩ := h.learns_value hin
    cases event with
    | scalar v => exact hscalar v
    | objectStart => exact hobject
    | arrayStart => exact harray
    | key k | objectEnd => cases h <;> exact learns_none _
    | arrayEnd =>
      cases h with
      | list h | element h =>
        obtain ⟨hk, htail⟩ := List.forall₂_cons.1 hin
        cases hk
        exact learns_arrayEnd (h.learns_held htail _)
      | first h | member h => exact learns_none _
  | mapStreamFirst h =>
    cases hk with
    | held h' => cases h'
    | top ht hin =>
      cases event with
      | key k => exact learns_ok (.top (.mapStreamValue _ k) hin)
      | objectEnd => exact h.learns_closed hin _ _
      | scalar v | objectStart | arrayStart | arrayEnd => exact learns_none _
  | mapStreamAfter h =>
    cases hk with
    | held h' => cases h'
    | top ht hin =>
      cases event with
      | key k => exact learns_ok (.top (.mapStreamValue _ k) hin)
      | objectEnd => exact h.learns_closed hin _ _
      | scalar v | objectStart | arrayStart | arrayEnd => exact learns_none _
  | mapStreamValue h =>
    cases hk with
    | held h' => cases h'
    | top ht hin =>
      cases ht with
      | mapStreamValue =>
        obtain ⟨hscalar, hobject, harray⟩ := learns_value (s := .mapStreamValue _ :: _) rfl
          (.member h) (.cons (.mapStreamAfter _ _) hin)
        cases event with
        | scalar v => exact hscalar v
        | objectStart => exact hobject
        | arrayStart => exact harray
        | key k | objectEnd | arrayEnd => exact learns_none _
  | mapHoldFirst h =>
    cases hk with
    | held h' => cases h'
    | top ht hin =>
      cases ht with
      | mapHoldKey =>
        cases event with
        | key k => exact learns_ok (.held (.first h) (.cons (.mapHoldValue _ k) hin))
        | objectEnd =>
          exact learns_objectEnd (h.learns_firstHeld (List.forall₂_cons.1 hin).2 _)
        | scalar v | objectStart | arrayStart | arrayEnd => exact learns_none _
  | mapHoldKey h =>
    cases hk with
    | held h' => cases h'
    | top ht hin =>
      cases ht with
      | mapHoldKey =>
        cases event with
        | key k => exact learns_ok (.held (.member h) (.cons (.mapHoldValue _ k) hin))
        | objectEnd => exact learns_objectEnd (h.learns_held hin _)
        | scalar v | objectStart | arrayStart | arrayEnd => exact learns_none _

/-! ## Runs -/

/-- A run of the render and of the builder over the same events. -/
theorem Simulates.knows_scan {pre : List (Event ν)} {text : Text ν} {b' : Builder ν} (h : Simulates s b)
    (hk : Knows s b) (hscan : Render.scan s pre = .ok (s', text)) (hrun : b.run pre = some b') :
    Simulates s' b' ∧ Knows s' b' := by
  induction pre generalizing s b text with
  | nil =>
    cases hscan
    cases hrun
    exact ⟨h, hk⟩
  | cons event pre ih =>
    obtain ⟨b₁, hb₁, hrun⟩ := Option.bind_eq_some_iff.1 hrun
    have hstep := h.step event
    rw [hb₁] at hstep
    rw [scan_cons] at hscan
    rcases hstep with ⟨s₁, out, hs₁, h₁⟩ | ⟨path, src, hs₁⟩
    · have hk₁ := h.learns hk event s₁ out b₁ hs₁ hb₁
      rw [hs₁, resume_ok] at hscan
      cases hrest : Render.scan s₁ pre with
      | error f =>
        rw [hrest] at hscan
        cases hscan
      | ok r =>
        obtain ⟨s₂, text₂⟩ := r
        rw [hrest] at hscan
        cases hscan
        exact ih h₁ hk₁ hrest hrun
    · rw [hs₁] at hscan
      cases hscan

/-- A run that fails fails at an event. -/
theorem scan_eq_error {events : List (Event ν)} {failure : Failure ν}
    (h : scan s events = .error failure) : ∃ pre event rest s' text, events = pre ++ event :: rest ∧
      scan s pre = .ok (s', text) ∧ exprStep s' event = .error failure := by
  induction events generalizing s with
  | nil => cases h
  | cons event events ih =>
    rw [scan_cons] at h
    cases hstep : exprStep s event with
    | error f =>
      rw [hstep] at h
      cases h
      exact ⟨[], event, events, s, [], rfl, rfl, hstep⟩
    | ok r =>
      obtain ⟨s₁, out⟩ := r
      rw [hstep, resume_ok] at h
      have hrest : scan s₁ events = .error failure := by
        cases hs : scan s₁ events with
        | error f =>
          rw [hs] at h
          cases h
          rfl
        | ok r =>
          rw [hs] at h
          cases h
      obtain ⟨pre, event', rest, s', text, rfl, hpre, hlast⟩ := ih hrest
      exact ⟨event :: pre, event', rest, s', out.flatten ++ text, rfl, by
        rw [scan_cons, hstep, resume_ok, hpre]; rfl, hlast⟩

/-! ## The refusal -/

/-- A transition refuses no object. -/
def Accepts (tr : Transition ν) : Prop := ∀ path src, tr ≠ .error (.unrepresentable path src)

omit [Zero ν] [DecidableEq ν] in
theorem accepts_exprPushOrDone (inner : Option (Marker ν)) (out : List (Text ν)) :
    Accepts (exprPushOrDone s inner out) := by
  unfold exprPushOrDone
  split
  · split <;> simp [Accepts]
  · simp [Accepts]

omit [Zero ν] [DecidableEq ν] in
theorem accepts_exprStreamValue (text : Text ν) (inner : Option (Marker ν)) :
    Accepts (exprStreamValue s text inner) := by
  unfold exprStreamValue
  split
  · exact accepts_exprPushOrDone _ _
  · exact accepts_exprPushOrDone _ _
  · split
    · exact accepts_exprPushOrDone _ _
    · simp [Accepts]
  · exact accepts_exprPushOrDone _ _
  · simp [Accepts]

omit [Zero ν] [DecidableEq ν] in
theorem accepts_exprHoldValue (i : Item ν) : Accepts (exprHoldValue s i) := by
  unfold exprHoldValue
  split <;> simp [Accepts]

omit [Zero ν] [DecidableEq ν] in
theorem accepts_exprClosed (text : Text ν) : Accepts (exprClosed s text) := by
  unfold exprClosed
  split <;> simp [Accepts]

omit [Zero ν] [DecidableEq ν] in
theorem accepts_exprHeld (i : Item ν) : Accepts (exprHeld s i) := by
  unfold exprHeld
  split
  · exact accepts_exprHoldValue i
  · exact accepts_exprHoldValue i
  · exact accepts_exprHoldValue i
  · unfold exprFirstHeld
    split <;> simp [Accepts]
  · exact accepts_exprClosed _

omit [Zero ν] [DecidableEq ν] in
theorem accepts_exprValue (event : Event ν) : Accepts (exprValue s event) := by
  unfold exprValue
  split
  · exact accepts_exprHoldValue _
  · simp [Accepts]
  · simp [Accepts]
  · exact accepts_exprStreamValue _ _
  · exact accepts_exprStreamValue _ _
  · exact accepts_exprStreamValue _ _
  · simp [Accepts]

omit [Zero ν] [DecidableEq ν] in
theorem accepts_exprFirst (mode : Mode) (event : Event ν) : Accepts (exprFirst s mode event) := by
  unfold exprFirst
  obtain ⟨s', lead⟩ := exprDecide s mode event
  have hvalue : Accepts (exprValue s' event) := accepts_exprValue event
  simp only
  split
  · simp [Accepts]
  · simp [Accepts]
  · simp [Accepts]
  · rename_i failure hfail
    rwa [hfail] at hvalue

omit [Zero ν] [DecidableEq ν] in
theorem accepts_exprDue (event : Event ν) : Accepts (exprDue s event) := by
  unfold exprDue
  split
  · exact accepts_exprValue event
  · exact accepts_exprFirst _ event
  · exact accepts_exprValue event
  · exact accepts_exprValue event
  · exact accepts_exprValue event
  · exact accepts_exprValue event
  · simp [Accepts]

omit [Zero ν] [DecidableEq ν] in
theorem accepts_exprArrayEnd : Accepts (exprArrayEnd s) := by
  have hclose : ∀ (s : State ν) (m : Marker ν), Accepts (exprClose s m) := by
    intro s m
    unfold exprClose
    split
    · exact accepts_exprClosed _
    · exact accepts_exprHeld _
    · exact accepts_exprClosed _
    · exact accepts_exprHeld _
    · simp [Accepts]
  unfold exprArrayEnd
  split
  · exact hclose _ _
  · exact hclose _ _
  · exact hclose _ _
  · simp [Accepts]

/-- Only the end of a held object is refused, for the `src` it is led by. -/
theorem exprStep_unrepresentable {event : Event ν} {path : List PathPart} {src : Text ν}
    (h : exprStep s event = .error (.unrepresentable path src)) :
    event = .objectEnd ∧ ∃ ps s', s = .mapHoldKey ps :: s' ∧ exprSrcOf ps = .foreign src ∧
      exprLeadsList s' = true ∧ exprPathText s' = some path := by
  unfold exprStep at h
  split at h
  · simp at h
  · unfold exprKey at h
    split at h <;> simp at h
  · refine ⟨rfl, ?_⟩
    unfold exprObjectEnd at h
    split at h
    · exact absurd h (accepts_exprClosed _ _ _)
    · exact absurd h (accepts_exprClosed _ _ _)
    · rename_i ps s' hdone
      split at h
      · rename_i src' hsrc
        split_ifs at h with hlead
        · unfold exprRefuse at h
          split at h
          · rename_i path' hpath
            obtain ⟨rfl, rfl⟩ := Failure.unrepresentable.inj (Except.error.inj h)
            exact ⟨ps, s', rfl, hsrc, hlead, hpath⟩
          · simp at h
        · exact absurd h (accepts_exprHeld _ _ _)
      · exact absurd h (accepts_exprHeld _ _ _)
    · simp at h
  · exact absurd h (accepts_exprArrayEnd _ _)
  · exact absurd h (accepts_exprDue _ _ _)

/-- What leads the list whose object is refused. -/
theorem exists_frames_of_leadsList (h : exprLeadsList s = true) (hin : List.Forall₂ KnowsIn s fs) :
    ∃ fs', fs = .list [] :: fs' := by
  cases hin with
  | nil => cases h
  | @cons m f s fs hk hin =>
    cases hk with
    | listFirst => exact ⟨fs, rfl⟩
    | listHold xs =>
      cases xs with
      | nil => exact ⟨fs, rfl⟩
      | cons x xs => cases h
    | listStream _ _ | mapStreamAfter | mapHoldValue => cases h

/-- A marker's part of a path is for the step into its container. -/
theorem KnowsIn.names {m : Marker ν} {f : Frame ν} (h : KnowsIn m f) :
    ∃ part step, exprPathPart m = some part ∧ f.step = some step ∧ Names step part ∧
      m.isMap = step.isKey := by
  cases h with
  | listStream hne h => exact ⟨_, _, rfl, rfl, .element hne h, rfl⟩
  | listFirst => exact ⟨_, _, rfl, rfl, .element firstIndex_ne_nil rfl, rfl⟩
  | listHold xs =>
    refine ⟨_, _, rfl, rfl, ?_, rfl⟩
    have hlen : (leadItems (xs.map Json.item)).length = xs.length := by
      cases xs <;> simp [leadItems]
    rw [hlen]
    exact .count xs.length
  | mapStreamAfter ms k => exact ⟨_, _, rfl, rfl, .key k, rfl⟩
  | mapHoldValue ms k => exact ⟨_, _, rfl, rfl, .key k, rfl⟩

theorem names_mapM (hin : List.Forall₂ KnowsIn s fs) : ∃ ps, s.mapM exprPathPart = some ps ∧
    List.Forall₂ Names (fs.filterMap Frame.step) ps ∧
    s.head?.any Marker.isMap = (fs.filterMap Frame.step).head?.any Step.isKey := by
  induction hin with
  | nil => exact ⟨[], rfl, .nil, rfl⟩
  | cons hk _ ih =>
    obtain ⟨ps, hps, hnames, -⟩ := ih
    obtain ⟨part, step, hpart, hstep, hname, hmap⟩ := hk.names
    rw [List.filterMap_cons_some hstep]
    exact ⟨part :: ps, by simp [hpart, hps], .cons hname hnames, by simp [hmap]⟩

/-- The path of a refusal leads to the value that was read. -/
theorem exprPathText_leads {path : List PathPart} (hin : List.Forall₂ KnowsIn s fs)
    (h : exprPathText s = some path) : Leads path (Builder.position fs) := by
  obtain ⟨ps, hps, hnames, hmap⟩ := names_mapM (List.forall₂_reverse_iff.2 hin)
  rw [exprPathText, hps, Option.map_some, ← List.head?_reverse, hmap] at h
  exact ⟨ps, hnames, (Option.some.inj h).symm⟩

theorem src_of_foreign {ms : List (String × Json ν)} {src : Text ν}
    (h : exprSrcOf (parts ms) = .foreign src) :
    ∃ v, Json.lastSrc ms = some v ∧ v.readBack.Misread ∧ src = v.item.text := by
  obtain ⟨v, hv, hmis⟩ := Json.foreign_iff.1 ⟨src, h⟩
  refine ⟨v, hv, hmis, ?_⟩
  rw [exprSrcOf, Json.getLast?_exprIsSrc, hv, Option.map_some] at h
  simp only at h
  split at h
  · cases h
  · split_ifs at h
    exact (Described.foreign.inj h).symm

/-- A run ends at a refusal. -/
theorem scan_of_unrepresentable {events : List (Event ν)} {path : List PathPart} {src : Text ν}
    (h : exprRender events = .error (.unrepresentable path src)) :
    scan [] events = .error (.unrepresentable path src) := by
  rw [exprRender] at h
  cases hscan : scan [] events with
  | error f =>
    rw [hscan] at h
    cases h
    rfl
  | ok r =>
    obtain ⟨s, text⟩ := r
    rw [hscan] at h
    simp only [Except.bind] at h
    unfold exprFinish at h
    split at h <;> simp [Except.map] at h

/-- A refusal names an object of the tree that is the first element of a list and whose last `src` would
be misread: the path leads to it, and the text is that `src`'s. -/
theorem exprRender_names {t : Json ν} {path : List PathPart} {src : Text ν}
    (h : exprRender t.events = .error (.unrepresentable path src)) :
    ∃ p ms v, t.At (p ++ [.index 0]) (.obj ms) ∧ Leads path (p ++ [.index 0]) ∧
      Json.lastSrc ms = some v ∧ v.readBack.Misread ∧ src = v.item.text := by
  have hfails : scan [] t.events = .error (.unrepresentable path src) := scan_of_unrepresentable h
  obtain ⟨pre, event, rest, s, text, he, hpre, hstep⟩ := scan_eq_error hfails
  obtain ⟨rfl, ps, s, rfl, hsrc, hlead, hpath⟩ := exprStep_unrepresentable hstep
  have hrun := Builder.run_eq_done_iff.2 he.symm
  rw [Builder.run_append] at hrun
  obtain ⟨b, hb, hrun⟩ := Option.bind_eq_some_iff.1 hrun
  obtain ⟨hsim, hk⟩ := Simulates.root.knows_scan .root hpre hb
  cases hk with
  | done => cases hrun
  | held h' => cases h'
  | top ht hin =>
    cases ht with
    | mapHoldKey ms =>
      have hat := Builder.at_of_objectEnd hb he
      have hleads := exprPathText_leads hin hpath
      obtain ⟨fs, rfl⟩ := exists_frames_of_leadsList hlead hin
      rw [Builder.position_cons] at hat hleads
      obtain ⟨v, hv, hmis, rfl⟩ := src_of_foreign hsrc
      exact ⟨_, ms, v, hat, hleads, hv, hmis, rfl⟩

end Markers

/-- `{"a":[5,[{"src":"x"}]]}` is refused at `a[1][0]`. -/
theorem exprRender_names_nested : ∃ p ms v,
    (Json.obj [("a", .list [.scalar (.num (.finite false 5)),
      .list [.obj [("src", .scalar (.str "x"))]]])] : Json ℕ).At (p ++ [.index 0]) (.obj ms) ∧
      Leads [.name "a", .element [1], .element [0]] (p ++ [.index 0]) ∧
      Json.lastSrc ms = some v ∧ v.readBack.Misread ∧ [.str "x"] = v.item.text :=
  exprRender_names rfl

end TabnasExpr.Render

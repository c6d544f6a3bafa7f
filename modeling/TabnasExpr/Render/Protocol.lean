import Mathlib.Algebra.GroupWithZero.Nat
import TabnasExpr.Render.Builder

/-!
# The sequences of events the render accepts

In every run the render's markers stand for the containers the builder is inside (`Simulates`).  So no
match of the render is without a case, an event that no tree goes on with is a protocol-order failure,
and no other event is.
-/

namespace TabnasExpr.Render

open Builder (Frame)

universe u

variable {ν : Type u}

/-- The markers around a value that is written as it is read. -/
inductive Streaming : State ν → List (Frame ν) → Prop where
  | root : Streaming [] []
  | element {s fs index xs} (h : Streaming s fs) (hi : index ≠ []) :
    Streaming (.listStream index :: s) (.list xs :: fs)
  | member {s fs k ms k'} (h : Streaming s fs) :
    Streaming (.mapStreamAfter k :: s) (.value ms k' :: fs)

/-- The markers where a held value is due. -/
inductive Held : State ν → List (Frame ν) → Prop where
  | list {s fs items xs} (h : Streaming s fs) : Held (.listHold items :: s) (.list xs :: fs)
  | element {s fs items xs} (h : Held s fs) : Held (.listHold items :: s) (.list xs :: fs)
  | first {s fs parts k ms k'} (h : Streaming s fs) :
    Held (.mapHoldValue parts k :: .listFirst :: s) (.value ms k' :: .list [] :: fs)
  | member {s fs parts k ms k'} (h : Held s fs) :
    Held (.mapHoldValue parts k :: s) (.value ms k' :: fs)

/-- The state of a render that has read what a builder has. -/
inductive Simulates : State ν → Builder ν → Prop where
  | root : Simulates [] (.within [])
  | done (t) : Simulates [.done] (.done t)
  | pendingStream {s fs} (h : Streaming s fs) :
    Simulates (.pending .stream :: s) (.within (.list [] :: fs))
  | pendingHold {s fs} (h : Held s fs) : Simulates (.pending .hold :: s) (.within (.list [] :: fs))
  | listStream {s fs index xs} (h : Streaming s fs) (hi : index ≠ []) :
    Simulates (.listStream index :: s) (.within (.list xs :: fs))
  | held {s fs} (h : Held s fs) : Simulates s (.within fs)
  | mapStreamFirst {s fs ms} (h : Streaming s fs) :
    Simulates (.mapStreamFirst :: s) (.within (.key ms :: fs))
  | mapStreamAfter {s fs k ms} (h : Streaming s fs) :
    Simulates (.mapStreamAfter k :: s) (.within (.key ms :: fs))
  | mapStreamValue {s fs k ms k'} (h : Streaming s fs) :
    Simulates (.mapStreamValue k :: s) (.within (.value ms k' :: fs))
  | mapHoldFirst {s fs parts ms} (h : Streaming s fs) :
    Simulates (.mapHoldKey parts :: .listFirst :: s) (.within (.key ms :: .list [] :: fs))
  | mapHoldKey {s fs parts ms} (h : Held s fs) :
    Simulates (.mapHoldKey parts :: s) (.within (.key ms :: fs))

/-- What a step of the render makes of an event, by what the builder makes of it. -/
def Follows (tr : Transition ν) : Option (Builder ν) → Prop
  | none => ∃ m, tr = .error (.protocolOrder m)
  | some b => (∃ s out, tr = .ok (s, out) ∧ Simulates s b) ∨
      ∃ path src, tr = .error (.unrepresentable path src)

section Step

variable {s s' : State ν} {fs : List (Frame ν)} {b : Builder ν}

theorem Streaming.isDue (h : Streaming s fs) : Builder.isDue fs := by
  cases h <;> rfl

theorem Held.isDue (h : Held s fs) : Builder.isDue fs := by
  cases h <;> rfl

theorem Held.holdsDue (h : Held s fs) : HoldsDue s := by
  cases h <;> trivial

theorem follows_ok {out : List (Text ν)} (h : Simulates s b) : Follows (.ok (s, out)) (some b) :=
  Or.inl ⟨s, out, rfl, h⟩

/-- A value that was written as it was read is complete. -/
theorem Streaming.place (h : Streaming s fs) (t : Json ν) :
    ∃ b, Builder.place t fs = some b ∧ Simulates (settle s) b := by
  cases h with
  | root => exact ⟨_, rfl, .done t⟩
  | element h hi => exact ⟨_, rfl, .listStream h hi⟩
  | member h => exact ⟨_, rfl, .mapStreamAfter h⟩

theorem Streaming.follows_closed (h : Streaming s fs) (t : Json ν) (text : Text ν) :
    Follows (exprClosed s text) (Builder.place t fs) := by
  obtain ⟨b, hb, hs⟩ := h.place t
  rw [hb]
  cases h with
  | root | element | member => exact follows_ok hs

/-- A held value is complete. -/
theorem Held.follows_holdValue (h : Held s fs) (t : Json ν) (i : Item ν) :
    Follows (exprHoldValue s i) (Builder.place t fs) := by
  cases h with
  | list h => exact follows_ok (.held (.list h))
  | element h => exact follows_ok (.held (.element h))
  | first h => exact follows_ok (.mapHoldFirst h)
  | member h => exact follows_ok (.mapHoldKey h)

theorem Held.follows_held (h : Held s fs) (t : Json ν) (i : Item ν) :
    Follows (exprHeld s i) (Builder.place t fs) := by
  rw [exprHeld_of_holdsDue h.holdsDue]
  exact h.follows_holdValue t i

/-- A held list whose own list is written as it is read. -/
theorem Streaming.follows_held (h : Streaming s fs) (t : Json ν) (i : Item ν) :
    Follows (exprHeld s i) (Builder.place t fs) := by
  have heq : exprHeld s i = exprClosed s i.text := by
    cases h <;> rfl
  rw [heq]
  exact h.follows_closed t i.text

/-- The object that led a list is complete. -/
theorem Streaming.follows_firstHeld (h : Streaming s fs) (t : Json ν) (i : Item ν) :
    Follows (exprHeld (.listFirst :: s) i) (Builder.place t (.list [] :: fs)) := by
  show Follows (exprFirstHeld (.listFirst :: s) i) _
  unfold exprFirstHeld
  cases i.head with
  | none => exact follows_ok (.listStream h firstIndex_ne_nil)
  | some o => exact follows_ok (.held (.list h))

/-- The path to a value of a held container is there. -/
theorem Streaming.exists_path (h : Streaming s fs) :
    ∀ m ∈ s, ∃ p, exprPathPart m = some p := by
  induction h with
  | root => simp
  | element h hi ih | member h ih =>
    intro m hm
    rcases List.mem_cons.1 hm with rfl | hm
    · exact ⟨_, rfl⟩
    · exact ih m hm

theorem Held.exists_path (h : Held s fs) : ∀ m ∈ s, ∃ p, exprPathPart m = some p := by
  induction h with
  | list h =>
    intro m hm
    rcases List.mem_cons.1 hm with rfl | hm
    · exact ⟨_, rfl⟩
    · exact h.exists_path m hm
  | first h =>
    intro m hm
    rcases List.mem_cons.1 hm with rfl | hm
    · exact ⟨_, rfl⟩
    · rcases List.mem_cons.1 hm with rfl | hm
      · exact ⟨_, rfl⟩
      · exact h.exists_path m hm
  | element h ih | member h ih =>
    intro m hm
    rcases List.mem_cons.1 hm with rfl | hm
    · exact ⟨_, rfl⟩
    · exact ih m hm

theorem exists_mapM {α β : Type*} {f : α → Option β} {xs : List α}
    (h : ∀ x ∈ xs, ∃ y, f x = some y) : ∃ ys, xs.mapM f = some ys := by
  induction xs with
  | nil => exact ⟨[], rfl⟩
  | cons x xs ih =>
    obtain ⟨y, hy⟩ := h x List.mem_cons_self
    obtain ⟨ys, hys⟩ := ih fun z hz => h z (List.mem_cons_of_mem _ hz)
    exact ⟨y :: ys, by simp [List.mapM_cons, hy, hys]⟩

/-- A refusal names the path. -/
theorem exists_exprRefuse (h : ∀ m ∈ s, ∃ p, exprPathPart m = some p) (src : Text ν) :
    ∃ path, exprRefuse s src = .unrepresentable path src := by
  obtain ⟨parts, hparts⟩ : ∃ parts, s.reverse.mapM exprPathPart = some parts :=
    exists_mapM fun m hm => h m (by simpa using hm)
  obtain ⟨path, hpath⟩ : ∃ path, exprPathText s = some path := by
    rw [exprPathText, hparts]
    exact ⟨_, rfl⟩
  exact ⟨path, by rw [exprRefuse, hpath]⟩

/-! ## Values where values are written as they are read -/

theorem exists_exprStreamValue_none {lead : Text ν} (h : place s = some (s', lead)) (text : Text ν) :
    ∃ out, exprStreamValue s text none = .ok (settle s', out) := by
  match s with
  | [] =>
    cases h
    exact ⟨_, rfl⟩
  | .listStream [] :: s | .mapStreamValue k :: s =>
    cases h
    exact ⟨_, rfl⟩
  | .listStream (d :: ds) :: s =>
    obtain ⟨next, hnext, he⟩ := Option.map_eq_some_iff.1 h
    cases he
    exact ⟨[[.comma], text], by simp [exprStreamValue, hnext, exprPushOrDone, exprMark, settle]⟩

theorem exists_exprStreamValue_some {lead : Text ν} (h : place s = some (s', lead)) (text : Text ν)
    (marker : Marker ν) : ∃ out, exprStreamValue s text (some marker) = .ok (marker :: s', out) := by
  match s with
  | [] =>
    cases h
    exact ⟨_, rfl⟩
  | .listStream [] :: s | .mapStreamValue k :: s =>
    cases h
    exact ⟨_, rfl⟩
  | .listStream (d :: ds) :: s =>
    obtain ⟨next, hnext, he⟩ := Option.map_eq_some_iff.1 h
    cases he
    exact ⟨[[.comma], text], by simp [exprStreamValue, hnext, exprPushOrDone, exprMark]⟩

variable [Zero ν] [DecidableEq ν]

/-- A value that begins where it is written as it is read. -/
theorem follows_value {lead : Text ν} (hp : place s = some (s', lead)) (hs : Streaming s' fs) :
    (∀ v, Follows (exprStep s (.scalar v)) (Builder.step (.within fs) (.scalar v))) ∧
      Follows (exprStep s .objectStart) (Builder.step (.within fs) .objectStart) ∧
      Follows (exprStep s .arrayStart) (Builder.step (.within fs) .arrayStart) := by
  obtain ⟨hscalar, hobject, harray⟩ := exprStep_of_place hp
  have hd : Builder.isDue fs = true := hs.isDue
  refine ⟨fun v => ?_, ?_, ?_⟩
  · obtain ⟨b, hb, hsim⟩ := hs.place (.scalar v)
    obtain ⟨out, hout⟩ := exists_exprStreamValue_none hp (exprScalarText v)
    rw [hscalar, hout, Builder.step, hb]
    exact follows_ok hsim
  · obtain ⟨out, hout⟩ := exists_exprStreamValue_some hp [.openMap] .mapStreamFirst
    rw [hobject, hout, Builder.step, if_pos hd]
    exact follows_ok (.mapStreamFirst hs)
  · obtain ⟨out, hout⟩ := exists_exprStreamValue_some hp [] (.pending .stream)
    rw [harray, hout, Builder.step, if_pos hd]
    exact follows_ok (.pendingStream hs)

/-- A value that begins where a held one is due. -/
theorem Held.follows_value (h : Held s fs) :
    (∀ v, Follows (exprStep s (.scalar v)) (Builder.step (.within fs) (.scalar v))) ∧
      Follows (exprStep s .objectStart) (Builder.step (.within fs) .objectStart) ∧
      Follows (exprStep s .arrayStart) (Builder.step (.within fs) .arrayStart) := by
  obtain ⟨hscalar, hobject, harray⟩ := exprStep_of_holdsDue h.holdsDue
  have hd : Builder.isDue fs = true := h.isDue
  refine ⟨fun v => ?_, ?_, ?_⟩
  · rw [hscalar]
    exact h.follows_holdValue _ _
  · rw [hobject, Builder.step, if_pos hd]
    exact follows_ok (.mapHoldKey h)
  · rw [harray, Builder.step, if_pos hd]
    exact follows_ok (.pendingHold h)

/-- The end of an object written as it is read, or the next key of it. -/
theorem Streaming.follows_pending (h : Streaming s fs) (event : Event ν) :
    Follows (exprStep (.pending .stream :: s) event)
      (Builder.step (.within (.list [] :: fs)) event) := by
  cases event with
  | scalar v =>
    cases hv : exprOp v with
    | none =>
      have hstep : exprStep (.pending .stream :: s) (.scalar v) =
          .ok (.listStream firstIndex :: s, [.openList :: exprScalarText v]) := by
        simp [exprStep, exprDue, exprFirst, exprDecide, hv, exprMark, exprValue, exprHolding,
          exprStreamValue, exprPushOrDone]
      rw [hstep]
      exact follows_ok (.listStream h firstIndex_ne_nil)
    | some o =>
      have hstep : exprStep (.pending .stream :: s) (.scalar v) =
          .ok (.listHold [exprLead [] (exprScalarItem v)] :: s, [[]]) := by
        simp [exprStep, exprDue, exprFirst, exprDecide, hv, exprMark, exprValue, exprHolding,
          exprHoldValue]
      rw [hstep]
      exact follows_ok (.held (.list h))
  | objectStart => exact follows_ok (.mapHoldFirst h)
  | arrayStart => exact follows_ok (.pendingStream (.element h firstIndex_ne_nil))
  | arrayEnd => exact h.follows_closed _ _
  | key k => exact ⟨_, rfl⟩
  | objectEnd => exact ⟨_, rfl⟩

theorem Held.follows_pending (h : Held s fs) (event : Event ν) :
    Follows (exprStep (.pending .hold :: s) event)
      (Builder.step (.within (.list [] :: fs)) event) := by
  cases event with
  | scalar v => exact follows_ok (.held (.element h))
  | objectStart => exact follows_ok (.mapHoldKey (.element h))
  | arrayStart => exact follows_ok (.pendingHold (.element h))
  | arrayEnd => exact h.follows_held _ _
  | key k => exact ⟨_, rfl⟩
  | objectEnd => exact ⟨_, rfl⟩

/-- The end of a held object. -/
theorem follows_objectEnd {parts : List (Text ν)} {ms : List (String × Json ν)}
    (hend : ∀ i, Follows (exprHeld s i) (Builder.place (.obj ms) fs))
    (hpath : ∀ m ∈ s, ∃ p, exprPathPart m = some p) (hd : Builder.isDue fs) :
    Follows (exprStep (.mapHoldKey parts :: s) .objectEnd)
      (Builder.step (.within (.key ms :: fs)) .objectEnd) := by
  show Follows (exprObjectEnd (.mapHoldKey parts :: s)) (Builder.place (.obj ms) fs)
  simp only [exprObjectEnd]
  cases exprSrcOf parts with
  | none => exact hend _
  | op o => exact hend _
  | foreign src =>
    simp only
    split_ifs
    · obtain ⟨path, hrefuse⟩ := exists_exprRefuse hpath src
      obtain ⟨b, hb⟩ := Builder.place_of_isDue hd (.obj ms)
      rw [hrefuse, hb]
      exact Or.inr ⟨path, src, rfl⟩
    · exact hend _

/-- An event does to the render what it does to the builder. -/
theorem Simulates.step (h : Simulates s b) (event : Event ν) :
    Follows (exprStep s event) (b.step event) := by
  cases h with
  | done t => exact ⟨_, rfl⟩
  | root =>
    obtain ⟨hscalar, hobject, harray⟩ := follows_value (s := ([] : State ν)) rfl .root
    cases event with
    | scalar v => exact hscalar v
    | objectStart => exact hobject
    | arrayStart => exact harray
    | key k | objectEnd | arrayEnd => exact ⟨_, rfl⟩
  | pendingStream h => exact h.follows_pending event
  | pendingHold h => exact h.follows_pending event
  | @listStream s fs index xs h hi =>
    obtain ⟨next, hne, hplace⟩ := exists_place (ν := ν) hi
    have hnext : Streaming (.listStream next :: s) (.list xs :: fs) := .element h hne
    obtain ⟨hscalar, hobject, harray⟩ := follows_value (hplace s) hnext
    cases event with
    | scalar v => exact hscalar v
    | objectStart => exact hobject
    | arrayStart => exact harray
    | arrayEnd => exact h.follows_closed _ _
    | key k | objectEnd => exact ⟨_, rfl⟩
  | held h =>
    obtain ⟨hscalar, hobject, harray⟩ := h.follows_value
    cases event with
    | scalar v => exact hscalar v
    | objectStart => exact hobject
    | arrayStart => exact harray
    | key k | objectEnd => cases h <;> exact ⟨_, rfl⟩
    | arrayEnd =>
      cases h with
      | list h => exact h.follows_held _ _
      | element h => exact h.follows_held _ _
      | first h | member h => exact ⟨_, rfl⟩
  | mapStreamFirst h =>
    cases event with
    | key k => exact follows_ok (.mapStreamValue h)
    | objectEnd => exact h.follows_closed _ _
    | scalar v | objectStart | arrayStart | arrayEnd => exact ⟨_, rfl⟩
  | mapStreamAfter h =>
    cases event with
    | key k => exact follows_ok (.mapStreamValue h)
    | objectEnd => exact h.follows_closed _ _
    | scalar v | objectStart | arrayStart | arrayEnd => exact ⟨_, rfl⟩
  | @mapStreamValue s fs k ms k' h =>
    have hafter : Streaming (.mapStreamAfter k :: s) (.value ms k' :: fs) := .member h
    obtain ⟨hscalar, hobject, harray⟩ := follows_value (s := .mapStreamValue k :: s) rfl hafter
    cases event with
    | scalar v => exact hscalar v
    | objectStart => exact hobject
    | arrayStart => exact harray
    | key k | objectEnd | arrayEnd => exact ⟨_, rfl⟩
  | mapHoldFirst h =>
    cases event with
    | key k => exact follows_ok (.held (.first h))
    | objectEnd =>
      refine follows_objectEnd (h.follows_firstHeld _) (fun m hm => ?_) rfl
      rcases List.mem_cons.1 hm with rfl | hm
      · exact ⟨_, rfl⟩
      · exact h.exists_path m hm
    | scalar v | objectStart | arrayStart | arrayEnd => exact ⟨_, rfl⟩
  | mapHoldKey h =>
    cases event with
    | key k => exact follows_ok (.held (.member h))
    | objectEnd => exact follows_objectEnd (h.follows_held _) h.exists_path h.isDue
    | scalar v | objectStart | arrayStart | arrayEnd => exact ⟨_, rfl⟩

/-! ## Runs -/

/-- A run that has failed has failed whatever events follow. -/
theorem scan_append_of_error {pre : List (Event ν)} {failure : Failure ν}
    (h : scan s pre = .error failure) (rest : List (Event ν)) :
    scan s (pre ++ rest) = .error failure := by
  induction pre generalizing s with
  | nil => cases h
  | cons event pre ih =>
    rw [List.cons_append, scan_cons]
    rw [scan_cons] at h
    cases hstep : exprStep s event with
    | error f =>
      rw [hstep] at h
      cases h
      rfl
    | ok r =>
      obtain ⟨s₁, out⟩ := r
      rw [hstep, resume_ok] at h
      have hpre : scan s₁ pre = .error failure := by
        cases hs : scan s₁ pre with
        | error f =>
          rw [hs] at h
          cases h
          rfl
        | ok r =>
          rw [hs] at h
          cases h
      rw [resume_ok, ih hpre]
      rfl

/-- What a run of the render makes of the events, by what the builder makes of them. -/
inductive Ends (s : State ν) (b : Builder ν) (events : List (Event ν)) : Prop where
  | ok {s' text b'} (hscan : scan s events = .ok (s', text)) (hrun : b.run events = some b')
    (h : Simulates s' b')
  | protocolOrder {m} (hscan : scan s events = .error (.protocolOrder m)) (hrun : b.run events = none)
  | unrepresentable {path src pre rest b'} (he : events = pre ++ rest)
    (hpre : scan s pre = .error (.unrepresentable path src)) (hrun : b.run pre = some b')
    (hscan : scan s events = .error (.unrepresentable path src))

theorem Simulates.scan (h : Simulates s b) (events : List (Event ν)) : Ends s b events := by
  induction events generalizing s b with
  | nil => exact .ok rfl rfl h
  | cons event events ih =>
    have hstep := h.step event
    cases hb : b.step event with
    | none =>
      rw [hb] at hstep
      obtain ⟨m, hm⟩ := hstep
      refine .protocolOrder (m := m) ?_ (by rw [Builder.run, hb]; rfl)
      rw [scan_cons, hm]
      rfl
    | some b₁ =>
      rw [hb] at hstep
      rcases hstep with ⟨s₁, out, hs₁, h₁⟩ | ⟨path, src, hs₁⟩
      · have hrun : ∀ es, b.run (event :: es) = b₁.run es := by
          intro es
          rw [Builder.run, hb]
          rfl
        have hscan : ∀ es, Render.scan s (event :: es) =
            prepend out.flatten (Render.scan s₁ es) := by
          intro es
          rw [scan_cons, hs₁, resume_ok]
        rcases ih h₁ with ⟨hs', hr', h'⟩ | ⟨hs', hr'⟩ |
          @⟨path, src, pre, rest, b', he, hpre, hr', hs'⟩
        · exact .ok (by rw [hscan, hs']; rfl) (by rw [hrun, hr']) h'
        · exact .protocolOrder (by rw [hscan, hs']; rfl) (by rw [hrun, hr'])
        · have hpre' := hscan pre
          rw [hpre] at hpre'
          have hevents := hscan events
          rw [hs'] at hevents
          exact .unrepresentable (congrArg (event :: ·) he) hpre' ((hrun pre).trans hr') hevents
      · have hfail : ∀ es, Render.scan s (event :: es) = .error (.unrepresentable path src) := by
          intro es
          rw [scan_cons, hs₁]
          rfl
        have he : event :: events = [event] ++ events := rfl
        exact .unrepresentable he (hfail []) (by rw [Builder.run, hb]; rfl) (hfail events)

omit [Zero ν] [DecidableEq ν] in
/-- The end of the events, where the builder has a whole tree and where it has not. -/
theorem Simulates.finish (h : Simulates s b) :
    (∃ t, b = .done t ∧ exprFinish s = .ok []) ∨
      (∀ t, b ≠ .done t) ∧ ∃ m, exprFinish s = .error (.protocolOrder m) := by
  cases h with
  | done t => exact Or.inl ⟨t, rfl, rfl⟩
  | held h =>
    refine Or.inr ⟨by simp, ?_⟩
    cases h <;> exact ⟨_, rfl⟩
  | root | pendingStream | pendingHold | listStream | mapStreamFirst | mapStreamAfter
  | mapStreamValue | mapHoldFirst | mapHoldKey => exact Or.inr ⟨by simp, _, rfl⟩

/-- The render never meets a match without a case.  It ends without a protocol-order failure on the
events of a tree, of exactly one, and on events that are refused before they have left the events of
every tree, and on no others. -/
theorem exprRender_protocol (events : List (Event ν)) :
    exprRender events ≠ .error .noCase ∧
      ((∀ m, exprRender events ≠ .error (.protocolOrder m)) ↔
        (∃! t, events = Json.events t) ∨
          ∃ pre rest path src, events = pre ++ rest ∧
            Render.scan [] pre = .error (.unrepresentable path src) ∧
            ∃ post t, pre ++ post = Json.events t) := by
  -- A tree whose events these are is the one the builder ends with.
  have htree : ∀ t, events = Json.events t → Builder.run (.within []) events = some (.done t) :=
    fun t => Builder.run_eq_done_iff.2
  -- Events that are refused at some point end in that refusal.
  have hrefused : ∀ pre rest path src, events = pre ++ rest →
      Render.scan [] pre = .error (.unrepresentable path src) →
      Render.scan [] events = .error (.unrepresentable path src) := by
    rintro pre rest path src rfl hpre
    exact scan_append_of_error hpre rest
  rcases Simulates.root.scan events with ⟨hscan, hrun, h⟩ | ⟨hscan, hrun⟩ | ⟨he, hpre, hrun, hscan⟩
  · rcases h.finish with ⟨t, rfl, hfin⟩ | ⟨hne, m, hfin⟩
    · have hrender : ∃ text, exprRender events = .ok text := by
        rw [exprRender, hscan]
        simp [Except.bind, hfin, Except.map]
      obtain ⟨text, hrender⟩ := hrender
      rw [hrender]
      refine ⟨by simp, iff_of_true (by simp) (Or.inl ⟨t, Builder.run_eq_done_iff.1 hrun, ?_⟩)⟩
      intro u hu
      exact (Builder.done.inj (Option.some.inj (hrun.symm.trans (htree u hu)))).symm
    · have hrender : exprRender events = .error (.protocolOrder m) := by
        rw [exprRender, hscan]
        simp [Except.bind, hfin, Except.map]
      rw [hrender]
      refine ⟨by simp, iff_of_false (by simp) ?_⟩
      rintro (⟨t, ht, -⟩ | ⟨pre, rest, path, src, he, hpre, -⟩)
      · exact hne t (Option.some.inj (hrun.symm.trans (htree t ht)))
      · rw [hrefused pre rest path src he hpre] at hscan
        cases hscan
  · have hrender : ∃ m, exprRender events = .error (.protocolOrder m) := by
      rw [exprRender, hscan]
      exact ⟨_, rfl⟩
    obtain ⟨m, hrender⟩ := hrender
    rw [hrender]
    refine ⟨by simp, iff_of_false (by simp) ?_⟩
    rintro (⟨t, ht, -⟩ | ⟨pre, rest, path, src, he, hpre, -⟩)
    · rw [htree t ht] at hrun
      cases hrun
    · rw [hrefused pre rest path src he hpre] at hscan
      cases hscan
  · have hrender : ∃ path src, exprRender events = .error (.unrepresentable path src) := by
      rw [exprRender, hscan]
      exact ⟨_, _, rfl⟩
    obtain ⟨path, src, hrender⟩ := hrender
    rw [hrender]
    exact ⟨by simp, iff_of_true (by simp)
      (Or.inr ⟨_, _, _, _, he, hpre, Builder.exists_tree_of_run hrun⟩)⟩

end Step

/-- `[{"src":"x"}` with no end to the list is refused, though no tree has these events. -/
theorem refused_before_end :
    (∀ m, exprRender [.arrayStart, .objectStart, .key "src", .scalar (.str "x"),
      (.objectEnd : Event ℕ)] ≠ .error (.protocolOrder m)) ∧
    ¬ ∃ t : Json ℕ, [.arrayStart, .objectStart, .key "src", .scalar (.str "x"), .objectEnd] =
      t.events := by
  have hrender : exprRender [.arrayStart, .objectStart, .key "src", .scalar (.str "x"),
      (.objectEnd : Event ℕ)] =
      .error (.unrepresentable [.dot, .element firstIndex] [.str "x"]) := rfl
  refine ⟨fun m hm => ?_, ?_⟩
  · rw [hrender] at hm
    cases hm
  · rintro ⟨t, ht⟩
    have hrun := Builder.run_eq_done_iff.2 ht
    cases hrun

end TabnasExpr.Render

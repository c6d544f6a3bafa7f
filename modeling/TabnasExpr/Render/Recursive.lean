import TabnasExpr.Render.Stream

/-!
# The render, recursively

`Json.item` writes a tree by recursion, and `Json.Refused` says which trees the render refuses.  The
streaming render writes the text of the item of the whole tree (`exprRender_events`), whatever it holds
and whatever it writes as it is read.
-/

namespace TabnasExpr.Render

universe u

variable {ν : Type u}

/-- A property of every tree, from its subtrees up. -/
theorem Json.induction {P : Json ν → Prop} (scalar : ∀ v, P (.scalar v))
    (list : ∀ xs, (∀ x ∈ xs, P x) → P (.list xs)) (obj : ∀ ms, (∀ m ∈ ms, P m.2) → P (.obj ms))
    (t : Json ν) : P t :=
  match t with
  | .scalar v => scalar v
  | .list xs => list xs (all xs)
  | .obj ms => obj ms (members ms)
where
  all : ∀ xs : List (Json ν), ∀ x ∈ xs, P x
  | [] => by simp
  | x :: xs => by
    rintro y (_ | ⟨_, hy⟩)
    · exact Json.induction scalar list obj x
    · exact all xs y hy
  members : ∀ ms : List (String × Json ν), ∀ m ∈ ms, P m.2
  | [] => by simp
  | (k, x) :: ms => by
    rintro m (_ | ⟨_, hm⟩)
    · exact Json.induction scalar list obj x
    · exact members ms m hm

/-- The first item as its list holds it, and the others as they are. -/
def leadItems : List (Item ν) → List (Item ν)
  | [] => []
  | i :: is => exprLead [] i :: is

variable [Zero ν] [DecidableEq ν]

namespace Json

mutual

/-- What a tree is written as. -/
def item : Json ν → Item ν
  | scalar v => exprScalarItem v
  | list xs => exprArray (leadItems (items xs))
  | obj ms => exprObject (parts ms)

/-- The items of the elements of a list. -/
def items : List (Json ν) → List (Item ν)
  | [] => []
  | x :: xs => item x :: items xs

/-- The texts of the members of an object. -/
def parts : List (String × Json ν) → List (Text ν)
  | [] => []
  | (k, x) :: ms => (.str k :: .colon :: (item x).text) :: parts ms

end

/-- An object whose `src` the reader would read as an operator, and which is no default one's. -/
def Foreign : Json ν → Prop
  | obj ms => ∃ src, exprSrcOf (parts ms) = .foreign src
  | _ => False

mutual

/-- Some list of the tree is led by such an object. -/
def Refused : Json ν → Prop
  | scalar _ => False
  | list xs => (∃ x ∈ xs.head?, Foreign x) ∨ RefusedAll xs
  | obj ms => RefusedMembers ms

def RefusedAll : List (Json ν) → Prop
  | [] => False
  | x :: xs => Refused x ∨ RefusedAll xs

def RefusedMembers : List (String × Json ν) → Prop
  | [] => False
  | (_, x) :: ms => Refused x ∨ RefusedMembers ms

end

@[simp] theorem items_eq_map (xs : List (Json ν)) : items xs = xs.map item := by
  induction xs with
  | nil => rfl
  | cons x xs ih => exact congrArg _ ih

theorem refusedAll_iff {xs : List (Json ν)} : RefusedAll xs ↔ ∃ x ∈ xs, Refused x := by
  induction xs with
  | nil => simp [RefusedAll]
  | cons x xs ih => simp [RefusedAll, ih]

theorem refusedMembers_iff {ms : List (String × Json ν)} :
    RefusedMembers ms ↔ ∃ m ∈ ms, Refused m.2 := by
  induction ms with
  | nil => simp [RefusedMembers]
  | cons m ms ih => simp [RefusedMembers, ih]

end Json

/-! ## Going on from an event -/

/-- A result with a text before what it writes. -/
def prepend (t : Text ν) (r : Except (Failure ν) (State ν × Text ν)) :
    Except (Failure ν) (State ν × Text ν) :=
  r.map fun (s, u) => (s, t ++ u)

/-- The events after a transition. -/
def resume (tr : Transition ν) (events : List (Event ν)) : Except (Failure ν) (State ν × Text ν) :=
  tr.bind fun (s, out) => prepend out.flatten (scan s events)

/-- A run that fails. -/
def Fails {α : Type u} (r : Except (Failure ν) α) : Prop := ∃ failure, r = .error failure

section Run

variable {s s' : State ν} {events rest : List (Event ν)} {t u : Text ν} {out : List (Text ν)}
  {r : Except (Failure ν) (State ν × Text ν)}

theorem scan_cons (event : Event ν) : scan s (event :: events) = resume (exprStep s event) events :=
  rfl

omit [Zero ν] [DecidableEq ν] in
@[simp] theorem prepend_nil : prepend [] r = r := by
  cases r <;> rfl

omit [Zero ν] [DecidableEq ν] in
@[simp] theorem prepend_prepend : prepend t (prepend u r) = prepend (t ++ u) r := by
  cases r with
  | error failure => rfl
  | ok r => simp [prepend, Except.map]

@[simp] theorem resume_ok : resume (.ok (s, out)) events = prepend out.flatten (scan s events) := rfl

omit [Zero ν] [DecidableEq ν] in
theorem Fails.prepend (h : Fails r) : Fails (prepend t r) := by
  obtain ⟨failure, rfl⟩ := h
  exact ⟨failure, rfl⟩

/-- What follows a value at the root: the document's end. -/
def ending : State ν → Text ν
  | [] => [.newline]
  | _ => []

/-- The state after a value that was written where it was read. -/
def settle : State ν → State ν
  | [] => [.done]
  | s => s

/-- Where a value is written as it is read: the state its container is left in, and what is written
before it. -/
def place : State ν → Option (State ν × Text ν)
  | [] => some ([], [])
  | .listStream [] :: s => some (.listStream firstIndex :: s, [])
  | .listStream index :: s => (exprCountUp index).map fun next => (.listStream next :: s, [.comma])
  | .mapStreamValue k :: s => some (.mapStreamAfter k :: s, [])
  | _ => none

/-- A held value is due. -/
def HoldsDue : State ν → Prop
  | .listHold _ :: _ => True
  | .mapHoldValue _ _ :: _ => True
  | _ => False

theorem resume_exprClosed (t : Text ν) :
    resume (exprClosed s t) events = prepend (t ++ ending s) (scan (settle s) events) := by
  cases s <;> simp [exprClosed, ending, settle]

/-- A value with no marker of its own, where values are written as they are read. -/
theorem resume_exprStreamValue_none {lead : Text ν} (h : place s = some (s', lead)) :
    resume (exprStreamValue s t none) events =
      prepend (lead ++ t ++ ending s') (scan (settle s') events) := by
  match s with
  | [] =>
    cases h
    simp [exprStreamValue, exprPushOrDone, ending, settle]
  | .listStream [] :: s | .mapStreamValue k :: s =>
    cases h
    simp [exprStreamValue, exprPushOrDone, exprMark, ending, settle]
  | .listStream (d :: ds) :: s =>
    obtain ⟨next, hnext, he⟩ := Option.map_eq_some_iff.1 h
    cases he
    simp [exprStreamValue, hnext, exprPushOrDone, exprMark, ending, settle]

/-- A value that opens a marker. -/
theorem resume_exprStreamValue_some {lead : Text ν} (h : place s = some (s', lead))
    (marker : Marker ν) :
    resume (exprStreamValue s t (some marker)) events =
      prepend (lead ++ t) (scan (marker :: s') events) := by
  match s with
  | [] =>
    cases h
    simp [exprStreamValue, exprPushOrDone]
  | .listStream [] :: s | .mapStreamValue k :: s =>
    cases h
    simp [exprStreamValue, exprPushOrDone, exprMark]
  | .listStream (d :: ds) :: s =>
    obtain ⟨next, hnext, he⟩ := Option.map_eq_some_iff.1 h
    cases he
    simp [exprStreamValue, hnext, exprPushOrDone, exprMark]

/-! ## Where a value is due -/

theorem exprStep_of_place {lead : Text ν} (h : place s = some (s', lead)) :
    (∀ v, exprStep s (.scalar v) = exprStreamValue s (exprScalarText v) none) ∧
      exprStep s .objectStart = exprStreamValue s [.openMap] (some .mapStreamFirst) ∧
      exprStep s .arrayStart = exprStreamValue s [] (some (.pending .stream)) := by
  match s with
  | [] | .listStream [] :: s | .listStream (d :: ds) :: s | .mapStreamValue k :: s =>
    exact ⟨fun _ => rfl, rfl, rfl⟩

theorem exprStep_of_holdsDue (h : HoldsDue s) :
    (∀ v, exprStep s (.scalar v) = exprHoldValue s (exprScalarItem v)) ∧
      exprStep s .objectStart = .ok (.mapHoldKey [] :: s, []) ∧
      exprStep s .arrayStart = .ok (.pending .hold :: s, []) := by
  match s with
  | .listHold items :: s | .mapHoldValue parts k :: s => exact ⟨fun _ => rfl, rfl, rfl⟩

omit [Zero ν] [DecidableEq ν] in
theorem exprHeld_of_holdsDue (h : HoldsDue s) (i : Item ν) : exprHeld s i = exprHoldValue s i := by
  match s with
  | .listHold items :: s | .mapHoldValue parts k :: s => rfl

/-- What the events of a tree do, where a held value is due and where one is written as it is read. -/
structure Renders (t : Json ν) : Prop where
  held : ∀ s rest, HoldsDue s → ¬ t.Refused → ¬ (exprLeadsList s ∧ t.Foreign) →
    scan s (t.events ++ rest) = resume (exprHoldValue s t.item) rest
  held_fails : ∀ s rest, HoldsDue s → t.Refused ∨ exprLeadsList s ∧ t.Foreign →
    Fails (scan s (t.events ++ rest))
  streamed : ∀ s s' lead rest, place s = some (s', lead) → ¬ t.Refused →
    scan s (t.events ++ rest) =
      prepend (lead ++ t.item.text ++ ending s') (scan (settle s') rest)
  streamed_fails : ∀ s s' lead rest, place s = some (s', lead) → t.Refused →
    Fails (scan s (t.events ++ rest))
  /-- An object, from its first key on, wherever it is held. -/
  object : ∀ ms, t = .obj ms → ∀ s rest, ¬ t.Refused → ¬ (exprLeadsList s ∧ t.Foreign) →
    scan (.mapHoldKey [] :: s) (Json.eventsMembers ms ++ .objectEnd :: rest) =
      resume (exprHeld s t.item) rest
  object_fails : ∀ ms, t = .obj ms → ∀ s rest, t.Refused ∨ exprLeadsList s ∧ t.Foreign →
    Fails (scan (.mapHoldKey [] :: s) (Json.eventsMembers ms ++ .objectEnd :: rest))

theorem renders_scalar (v : Scalar ν) : Renders (.scalar v) where
  held s rest h _ _ := by
    show resume (exprStep s (.scalar v)) rest = _
    rw [(exprStep_of_holdsDue h).1]
    rfl
  held_fails _ _ _ h := by
    rcases h with h | ⟨-, h⟩ <;> exact h.elim
  streamed s s' lead rest h _ := by
    show resume (exprStep s (.scalar v)) rest = _
    rw [(exprStep_of_place h).1, resume_exprStreamValue_none h]
    rfl
  streamed_fails _ _ _ _ _ h := h.elim
  object _ h := by cases h
  object_fails _ h := by cases h

/-! ## Held elements and members -/

section Held

variable {xs : List (Json ν)} {ms : List (String × Json ν)} {is : List (Item ν)}
  {ps : List (Text ν)} {k : String}

/-- An element of a held list adds its item. -/
theorem Renders.scan_element {x : Json ν} (h : Renders x) (hr : ¬ x.Refused)
    (hlead : ¬ (exprLeadsList (.listHold is :: s) ∧ x.Foreign)) :
    scan (.listHold is :: s) (x.events ++ rest) =
      scan (.listHold (is ++ [exprLead is x.item]) :: s) rest := by
  have hdue : HoldsDue (.listHold is :: s) := trivial
  rw [h.held _ _ hdue hr hlead]
  simp [exprHoldValue, exprMark]

/-- The value of a member of a held object adds the member's text. -/
theorem Renders.scan_value {x : Json ν} (h : Renders x) (hr : ¬ x.Refused) :
    scan (.mapHoldValue ps k :: s) (x.events ++ rest) =
      scan (.mapHoldKey (ps ++ [.str k :: .colon :: x.item.text]) :: s) rest := by
  have hdue : HoldsDue (.mapHoldValue ps k :: s) := trivial
  have hlead : ¬ (exprLeadsList (.mapHoldValue ps k :: s) ∧ x.Foreign) := by
    rintro ⟨⟨⟩, -⟩
  rw [h.held _ _ hdue hr hlead]
  simp [exprHoldValue, exprMark]

theorem Renders.scan_value_fails {x : Json ν} (h : Renders x) (hr : x.Refused) :
    Fails (scan (.mapHoldValue ps k :: s) (x.events ++ rest)) := by
  have hdue : HoldsDue (.mapHoldValue ps k :: s) := trivial
  exact h.held_fails _ _ hdue (Or.inl hr)

theorem scan_elements (h : ∀ x ∈ xs, Renders x) (his : is ≠ []) (hr : ∀ x ∈ xs, ¬ x.Refused) :
    scan (.listHold is :: s) (Json.eventsAll xs ++ rest) =
      scan (.listHold (is ++ xs.map Json.item) :: s) rest := by
  induction xs generalizing is with
  | nil => simp [Json.eventsAll]
  | cons x xs ih =>
    have hlead : ¬ (exprLeadsList (.listHold is :: s) ∧ x.Foreign) := by
      cases is with
      | nil => exact absurd rfl his
      | cons i is => rintro ⟨⟨⟩, -⟩
    have hitem : exprLead is x.item = x.item := by
      cases is with
      | nil => exact absurd rfl his
      | cons i is => rfl
    rw [Json.eventsAll, List.append_assoc,
      (h x List.mem_cons_self).scan_element (hr x List.mem_cons_self) hlead, hitem,
      ih (fun y hy => h y (List.mem_cons_of_mem _ hy)) (by simp)
      (fun y hy => hr y (List.mem_cons_of_mem _ hy)), List.append_assoc]
    rfl

theorem scan_elements_fails (h : ∀ x ∈ xs, Renders x) (hr : ∃ x ∈ xs, x.Refused) :
    Fails (scan (.listHold is :: s) (Json.eventsAll xs ++ rest)) := by
  induction xs generalizing is with
  | nil => simp at hr
  | cons x xs ih =>
    rw [Json.eventsAll, List.append_assoc]
    have hx := h x List.mem_cons_self
    have hdue : HoldsDue (.listHold is :: s) := trivial
    by_cases hfail : x.Refused ∨ exprLeadsList (.listHold is :: s) ∧ x.Foreign
    · exact hx.held_fails _ _ hdue hfail
    · obtain ⟨hxr, hlead⟩ := not_or.1 hfail
      rw [hx.scan_element hxr hlead]
      exact ih (fun y hy => h y (List.mem_cons_of_mem _ hy)) (by simpa [hxr] using hr)

/-- The elements of a held list, from the first on. -/
theorem scan_lead (h : ∀ x ∈ xs, Renders x) (hlead : ∀ x ∈ xs.head?, ¬ x.Foreign)
    (hr : ∀ x ∈ xs, ¬ x.Refused) :
    scan (.listHold [] :: s) (Json.eventsAll xs ++ rest) =
      scan (.listHold (leadItems (xs.map Json.item)) :: s) rest := by
  cases xs with
  | nil => rfl
  | cons x xs =>
    rw [Json.eventsAll, List.append_assoc, (h x List.mem_cons_self).scan_element
      (hr x List.mem_cons_self) fun hl => hlead x rfl hl.2, List.nil_append,
      scan_elements (fun y hy => h y (List.mem_cons_of_mem _ hy)) (by simp)
      fun y hy => hr y (List.mem_cons_of_mem _ hy)]
    rfl

theorem scan_lead_fails (h : ∀ x ∈ xs, Renders x)
    (hr : (∃ x ∈ xs.head?, x.Foreign) ∨ ∃ x ∈ xs, x.Refused) :
    Fails (scan (.listHold [] :: s) (Json.eventsAll xs ++ rest)) := by
  cases xs with
  | nil => simp at hr
  | cons x xs =>
    by_cases hx : x.Foreign
    · have hdue : HoldsDue (.listHold [] :: s) := trivial
      rw [Json.eventsAll, List.append_assoc]
      exact (h x List.mem_cons_self).held_fails _ _ hdue (Or.inr ⟨rfl, hx⟩)
    · exact scan_elements_fails h (by simpa [hx] using hr)

theorem scan_key (name : String) :
    scan (.mapHoldKey ps :: s) (.key name :: events) = scan (.mapHoldValue ps name :: s) events := by
  simp [scan_cons, exprStep, exprKey, exprMark]

theorem scan_members (h : ∀ m ∈ ms, Renders m.2) (hr : ∀ m ∈ ms, ¬ m.2.Refused) :
    scan (.mapHoldKey ps :: s) (Json.eventsMembers ms ++ rest) =
      scan (.mapHoldKey (ps ++ Json.parts ms) :: s) rest := by
  induction ms generalizing ps with
  | nil => simp [Json.eventsMembers, Json.parts]
  | cons m ms ih =>
    obtain ⟨k, x⟩ := m
    have hx : Renders x := h _ List.mem_cons_self
    rw [Json.eventsMembers, List.cons_append, List.append_assoc, scan_key,
      hx.scan_value (hr _ List.mem_cons_self), ih (fun m hm => h m (List.mem_cons_of_mem _ hm))
      fun m hm => hr m (List.mem_cons_of_mem _ hm), List.append_assoc]
    rfl

theorem scan_members_fails (h : ∀ m ∈ ms, Renders m.2) (hr : ∃ m ∈ ms, m.2.Refused) :
    Fails (scan (.mapHoldKey ps :: s) (Json.eventsMembers ms ++ rest)) := by
  induction ms generalizing ps with
  | nil => simp at hr
  | cons m ms ih =>
    obtain ⟨k, x⟩ := m
    have hx : Renders x := h _ List.mem_cons_self
    rw [Json.eventsMembers, List.cons_append, List.append_assoc, scan_key]
    by_cases hxr : x.Refused
    · exact hx.scan_value_fails hxr
    · rw [hx.scan_value hxr]
      exact ih (fun m hm => h m (List.mem_cons_of_mem _ hm)) (by simpa [hxr] using hr)

/-- A held object, from its first key on. -/
theorem scan_object (h : ∀ m ∈ ms, Renders m.2) (hr : ∀ m ∈ ms, ¬ m.2.Refused)
    (hlead : ¬ (exprLeadsList s ∧ (Json.obj ms).Foreign)) :
    scan (.mapHoldKey [] :: s) (Json.eventsMembers ms ++ .objectEnd :: rest) =
      resume (exprHeld s (Json.obj ms).item) rest := by
  rw [scan_members h hr, List.nil_append, scan_cons]
  simp only [exprStep, exprObjectEnd, Json.item, exprObject]
  cases hd : exprSrcOf (Json.parts ms) with
  | none | op o => rfl
  | foreign src =>
    have hl : ¬ exprLeadsList s = true := fun hl => hlead ⟨hl, src, hd⟩
    simp only [hl]
    rfl

theorem scan_object_fails (h : ∀ m ∈ ms, Renders m.2)
    (hr : (∃ m ∈ ms, m.2.Refused) ∨ exprLeadsList s ∧ (Json.obj ms).Foreign) :
    Fails (scan (.mapHoldKey [] :: s) (Json.eventsMembers ms ++ .objectEnd :: rest)) := by
  by_cases hm : ∃ m ∈ ms, m.2.Refused
  · exact scan_members_fails h hm
  · obtain ⟨hl, src, hd⟩ := hr.resolve_left hm
    rw [scan_members h fun m hmem hmr => hm ⟨m, hmem, hmr⟩, List.nil_append, scan_cons]
    simp only [exprStep, exprObjectEnd, hd, hl, if_true]
    exact ⟨_, rfl⟩

end Held

/-! ## Elements and members written as they are read -/

section Streamed

variable {x : Json ν} {xs : List (Json ν)} {ms : List (String × Json ν)} {k : String}
  {index : List Digit}

theorem Renders.scan_stream_first (h : Renders x) (hr : ¬ x.Refused) :
    scan (.listStream [] :: s) (x.events ++ rest) =
      prepend x.item.text (scan (.listStream firstIndex :: s) rest) := by
  rw [h.streamed _ _ _ _ rfl hr]
  simp [ending, settle]

omit [Zero ν] [DecidableEq ν] in
theorem exists_place (hi : index ≠ []) :
    ∃ next, next ≠ [] ∧ ∀ s : State ν,
      place (.listStream index :: s) = some (.listStream next :: s, [.comma]) := by
  obtain ⟨next, hnext, hne⟩ := exists_exprCountUp hi
  refine ⟨next, hne, fun s => ?_⟩
  cases index with
  | nil => exact absurd rfl hi
  | cons d ds => simp [place, hnext]

theorem Renders.scan_stream_element (h : Renders x) (hr : ¬ x.Refused) (hi : index ≠ []) :
    ∃ next, next ≠ [] ∧ ∀ s rest, scan (.listStream index :: s) (x.events ++ rest) =
      prepend (.comma :: x.item.text) (scan (.listStream next :: s) rest) := by
  obtain ⟨next, hne, hplace⟩ := exists_place hi
  refine ⟨next, hne, fun s rest => ?_⟩
  rw [h.streamed _ _ _ _ (hplace s) hr]
  simp [ending, settle]

theorem Renders.scan_stream_value (h : Renders x) (hr : ¬ x.Refused) :
    scan (.mapStreamValue k :: s) (x.events ++ rest) =
      prepend x.item.text (scan (.mapStreamAfter k :: s) rest) := by
  rw [h.streamed _ _ _ _ rfl hr]
  simp [ending, settle]

theorem scan_stream_elements (h : ∀ x ∈ xs, Renders x) (hr : ∀ x ∈ xs, ¬ x.Refused)
    (hi : index ≠ []) :
    scan (.listStream index :: s) (Json.eventsAll xs ++ .arrayEnd :: rest) =
      prepend ((xs.map Json.item).flatMap (.comma :: Item.text ·) ++ .closeList :: ending s)
        (scan (settle s) rest) := by
  induction xs generalizing index with
  | nil =>
    show resume (exprClosed s [.closeList]) rest = _
    rw [resume_exprClosed]
    rfl
  | cons x xs ih =>
    obtain ⟨next, hne, hx⟩ :=
      (h x List.mem_cons_self).scan_stream_element (hr x List.mem_cons_self) hi
    rw [Json.eventsAll, List.append_assoc, hx, ih (fun y hy => h y (List.mem_cons_of_mem _ hy))
      (fun y hy => hr y (List.mem_cons_of_mem _ hy)) hne, prepend_prepend]
    simp

theorem scan_stream_elements_fails (h : ∀ x ∈ xs, Renders x) (hr : ∃ x ∈ xs, x.Refused)
    (hi : index ≠ []) :
    Fails (scan (.listStream index :: s) (Json.eventsAll xs ++ rest)) := by
  induction xs generalizing index with
  | nil => simp at hr
  | cons x xs ih =>
    rw [Json.eventsAll, List.append_assoc]
    have hx := h x List.mem_cons_self
    by_cases hxr : x.Refused
    · obtain ⟨next, -, hplace⟩ := exists_place hi
      exact hx.streamed_fails _ _ _ _ (hplace s) hxr
    · obtain ⟨next, hne, hscan⟩ := hx.scan_stream_element hxr hi
      rw [hscan]
      exact (ih (fun y hy => h y (List.mem_cons_of_mem _ hy)) (by simpa [hxr] using hr) hne).prepend

theorem scan_stream_members (h : ∀ m ∈ ms, Renders m.2) (hr : ∀ m ∈ ms, ¬ m.2.Refused) :
    scan (.mapStreamAfter k :: s) (Json.eventsMembers ms ++ .objectEnd :: rest) =
      prepend ((Json.parts ms).flatMap (.comma :: ·) ++ .closeMap :: ending s)
        (scan (settle s) rest) := by
  induction ms generalizing k with
  | nil =>
    show resume (exprClosed s [.closeMap]) rest = _
    rw [resume_exprClosed]
    rfl
  | cons m ms ih =>
    obtain ⟨k', x⟩ := m
    have hx : Renders x := h _ List.mem_cons_self
    rw [Json.eventsMembers, List.cons_append, List.append_assoc, scan_cons]
    simp only [exprStep, exprKey, exprMark, resume_ok, List.tail_cons]
    rw [hx.scan_stream_value (hr _ List.mem_cons_self),
      ih (fun m hm => h m (List.mem_cons_of_mem _ hm)) fun m hm => hr m (List.mem_cons_of_mem _ hm)]
    simp [Json.parts]

theorem scan_stream_members_fails (h : ∀ m ∈ ms, Renders m.2) (hr : ∃ m ∈ ms, m.2.Refused) :
    Fails (scan (.mapStreamAfter k :: s) (Json.eventsMembers ms ++ rest)) := by
  induction ms generalizing k with
  | nil => simp at hr
  | cons m ms ih =>
    obtain ⟨k', x⟩ := m
    have hx : Renders x := h _ List.mem_cons_self
    rw [Json.eventsMembers, List.cons_append, List.append_assoc, scan_cons]
    simp only [exprStep, exprKey, exprMark, resume_ok, List.tail_cons]
    apply Fails.prepend
    by_cases hxr : x.Refused
    · exact hx.streamed_fails _ _ _ _ rfl hxr
    · rw [hx.scan_stream_value hxr]
      exact (ih (fun m hm => h m (List.mem_cons_of_mem _ hm)) (by simpa [hxr] using hr)).prepend

omit [Zero ν] [DecidableEq ν] in
theorem joinText_cons (sep t : Text ν) (ts : List (Text ν)) :
    joinText sep (t :: ts) = t ++ ts.flatMap (sep ++ ·) := by
  induction ts generalizing t with
  | nil => simp [joinText]
  | cons u ts ih => simp [joinText, ih]

/-- An object written as it is read, from its first key on. -/
theorem scan_stream_object (h : ∀ m ∈ ms, Renders m.2) (hr : ∀ m ∈ ms, ¬ m.2.Refused) :
    prepend [.openMap] (scan (.mapStreamFirst :: s) (Json.eventsMembers ms ++ .objectEnd :: rest)) =
      prepend ((Json.obj ms).item.text ++ ending s) (scan (settle s) rest) := by
  cases ms with
  | nil =>
    show prepend _ (resume (exprClosed s [.closeMap]) rest) = _
    rw [resume_exprClosed, prepend_prepend]
    rfl
  | cons m ms =>
    obtain ⟨k, x⟩ := m
    have hx : Renders x := h _ List.mem_cons_self
    rw [Json.eventsMembers, List.cons_append, List.append_assoc, scan_cons]
    simp only [exprStep, exprKey, exprMark, resume_ok, List.tail_cons]
    rw [hx.scan_stream_value (hr _ List.mem_cons_self),
      scan_stream_members (fun m hm => h m (List.mem_cons_of_mem _ hm))
      fun m hm => hr m (List.mem_cons_of_mem _ hm)]
    simp [Json.item, exprObject, Item.atom, mapText, Json.parts, joinText_cons]

theorem scan_stream_object_fails (h : ∀ m ∈ ms, Renders m.2) (hr : ∃ m ∈ ms, m.2.Refused) :
    Fails (scan (.mapStreamFirst :: s) (Json.eventsMembers ms ++ rest)) := by
  cases ms with
  | nil => simp at hr
  | cons m ms =>
    obtain ⟨k, x⟩ := m
    have hx : Renders x := h _ List.mem_cons_self
    rw [Json.eventsMembers, List.cons_append, List.append_assoc, scan_cons]
    simp only [exprStep, exprKey, exprMark, resume_ok, List.tail_cons]
    apply Fails.prepend
    by_cases hxr : x.Refused
    · exact hx.streamed_fails _ _ _ _ rfl hxr
    · rw [hx.scan_stream_value hxr]
      exact (scan_stream_members_fails (fun m hm => h m (List.mem_cons_of_mem _ hm))
        (by simpa [hxr] using hr)).prepend

end Streamed

theorem renders_obj {ms : List (String × Json ν)} (h : ∀ m ∈ ms, Renders m.2) :
    Renders (.obj ms) where
  held s rest hs hr hlead := by
    rw [Json.Refused, Json.refusedMembers_iff, not_exists] at hr
    rw [Json.events, List.cons_append, scan_cons, (exprStep_of_holdsDue hs).2.1, resume_ok,
      List.append_assoc, List.flatten_nil, prepend_nil, ← exprHeld_of_holdsDue hs]
    exact scan_object h (fun m hm hmr => hr m ⟨hm, hmr⟩) hlead
  held_fails s rest hs hr := by
    rw [Json.Refused, Json.refusedMembers_iff] at hr
    rw [Json.events, List.cons_append, scan_cons, (exprStep_of_holdsDue hs).2.1, resume_ok,
      List.append_assoc, List.flatten_nil, prepend_nil]
    exact scan_object_fails h hr
  streamed s s' lead rest hs hr := by
    rw [Json.Refused, Json.refusedMembers_iff, not_exists] at hr
    rw [Json.events, List.cons_append, scan_cons, (exprStep_of_place hs).2.1,
      resume_exprStreamValue_some hs, List.append_assoc, ← prepend_prepend]
    show prepend lead (prepend _ (scan _ (_ ++ .objectEnd :: rest))) = _
    rw [scan_stream_object h fun m hm hmr => hr m ⟨hm, hmr⟩, prepend_prepend, List.append_assoc]
  streamed_fails s s' lead rest hs hr := by
    rw [Json.Refused, Json.refusedMembers_iff] at hr
    rw [Json.events, List.cons_append, scan_cons, (exprStep_of_place hs).2.1,
      resume_exprStreamValue_some hs, List.append_assoc]
    exact (scan_stream_object_fails h hr).prepend
  object ms' he s rest hr hlead := by
    cases he
    rw [Json.Refused, Json.refusedMembers_iff, not_exists] at hr
    exact scan_object h (fun m hm hmr => hr m ⟨hm, hmr⟩) hlead
  object_fails ms' he s rest hr := by
    cases he
    rw [Json.Refused, Json.refusedMembers_iff] at hr
    exact scan_object_fails h hr

/-! ## Lists -/

section List

variable {x : Json ν} {xs : List (Json ν)}

/-- Inside a held list or object, the first element of a list is held from the start. -/
theorem scan_pending_hold (x : Json ν) :
    scan (.pending .hold :: s) (x.events ++ rest) = scan (.listHold [] :: s) (x.events ++ rest) := by
  cases x with
  | scalar v | list xs | obj ms => rfl

/-- A list whose first element is no operator and no object is written as it is read. -/
theorem scan_pending_stream {x : Json ν} (hx : x.item.head = none) (hobj : ∀ ms, x ≠ .obj ms) :
    scan (.pending .stream :: s) (x.events ++ rest) =
      prepend [.openList] (scan (.listStream [] :: s) (x.events ++ rest)) := by
  cases x with
  | scalar v =>
    have hv : exprOp v = none := hx
    have hstep : exprStep (.pending .stream :: s) (.scalar v) =
        .ok (.listStream firstIndex :: s, [.openList :: exprScalarText v]) := by
      simp [exprStep, exprDue, exprFirst, exprDecide, hv, exprMark, exprValue, exprHolding,
        exprStreamValue, exprPushOrDone]
    have hstream : exprStep (.listStream [] :: s) (.scalar v) =
        .ok (.listStream firstIndex :: s, [exprScalarText v]) := rfl
    rw [Json.events, List.cons_append, scan_cons, scan_cons, hstep, hstream]
    simp
  | list xs =>
    have hstep : exprStep (.pending .stream :: s) (.arrayStart : Event ν) =
        .ok (.pending .stream :: .listStream firstIndex :: s, [[.openList]]) := rfl
    have hstream : exprStep (.listStream [] :: s) (.arrayStart : Event ν) =
        .ok (.pending .stream :: .listStream firstIndex :: s, [[]]) := rfl
    rw [Json.events, List.cons_append, scan_cons, scan_cons, hstep, hstream]
    simp
  | obj ms => exact absurd rfl (hobj ms)

/-- A list whose first element is an operator is held. -/
theorem scan_pending_op {v : Scalar ν} {o : Source} (hv : exprOp v = some o) :
    scan (.pending .stream :: s) ((Json.scalar v).events ++ rest) =
      scan (.listHold [] :: s) ((Json.scalar v).events ++ rest) := by
  have hstep : exprStep (.pending .stream :: s) (.scalar v) =
      .ok (.listHold [exprLead [] (exprScalarItem v)] :: s, [[]]) := by
    simp [exprStep, exprDue, exprFirst, exprDecide, hv, exprMark, exprValue, exprHolding,
      exprHoldValue]
  have hhold : exprStep (.listHold [] :: s) (.scalar v) =
      .ok (.listHold [exprLead [] (exprScalarItem v)] :: s, []) := rfl
  rw [Json.events, List.cons_append, scan_cons, scan_cons, hstep, hhold]
  simp

/-- A list whose first element is an object waits for it. -/
theorem scan_pending_object (ms : List (String × Json ν)) :
    scan (.pending .stream :: s) ((Json.obj ms).events ++ rest) =
      scan (.mapHoldKey [] :: .listFirst :: s) (Json.eventsMembers ms ++ .objectEnd :: rest) := by
  have hstep : exprStep (.pending .stream :: s) (.objectStart : Event ν) =
      .ok (.mapHoldKey [] :: .listFirst :: s, [[]]) := rfl
  rw [Json.events, List.cons_append, scan_cons, List.append_assoc, hstep]
  simp

omit [Zero ν] [DecidableEq ν] in
theorem head_exprArray (is : List (Item ν)) : (exprArray is).head = none := by
  unfold exprArray
  split
  · split <;> rfl
  · split <;> rfl
  · unfold exprInfix
    split <;> rfl
  · rfl

/-- The text of a list that is no operation. -/
theorem text_list_of_head (hx : x.item.head = none) :
    (Json.list (x :: xs)).item.text =
      .openList :: (x.item.text ++ (xs.map Json.item).flatMap (.comma :: Item.text ·) ++
        [.closeList]) := by
  have hlead : exprLead [] x.item = x.item := by simp [exprLead, hx]
  have harray : exprArray (x.item :: xs.map Json.item) =
      .atom (exprList (x.item :: xs.map Json.item)) none := by
    apply exprArray_of_head
    rintro i ⟨⟩
    exact hx
  rw [Json.item, Json.items_eq_map, List.map_cons, leadItems, hlead, harray]
  simp [Item.atom, exprList, joinText_cons, List.flatMap_map]

omit [Zero ν] [DecidableEq ν] in
/-- Where a value was written as it is read, a held one that ends is written too. -/
theorem exprHeld_of_place {lead : Text ν} (h : place s = some (s', lead)) (i : Item ν) :
    exprHeld s' i = exprClosed s' i.text := by
  match s with
  | [] =>
    cases h
    rfl
  | .listStream [] :: s | .mapStreamValue k :: s =>
    cases h
    rfl
  | .listStream (d :: ds) :: s =>
    obtain ⟨next, hnext, he⟩ := Option.map_eq_some_iff.1 h
    cases he
    rfl

/-- The end of a held list where values are written as they are read. -/
theorem scan_held_end (hs : ∀ i, exprHeld s i = exprClosed s i.text) (is : List (Item ν)) :
    scan (.listHold is :: s) (.arrayEnd :: rest) =
      prepend ((exprArray is).text ++ ending s) (scan (settle s) rest) := by
  rw [scan_cons]
  show resume (exprHeld s (exprArray is)) rest = _
  rw [hs, resume_exprClosed]

/-- A list where values are written as they are read, from its first element on. -/
theorem scan_pending (h : ∀ x ∈ xs, Renders x) (hlead : ∀ x ∈ xs.head?, ¬ x.Foreign)
    (hr : ∀ x ∈ xs, ¬ x.Refused) (hs : ∀ i, exprHeld s i = exprClosed s i.text) :
    scan (.pending .stream :: s) (Json.eventsAll xs ++ .arrayEnd :: rest) =
      prepend ((Json.list xs).item.text ++ ending s) (scan (settle s) rest) := by
  cases xs with
  | nil =>
    show resume (exprClosed s [.openList, .closeList]) rest = _
    rw [resume_exprClosed]
    rfl
  | cons x xs =>
    have hx := h x List.mem_cons_self
    have hxr := hr x List.mem_cons_self
    have htail : ∀ y ∈ xs, Renders y := fun y hy => h y (List.mem_cons_of_mem _ hy)
    have htailr : ∀ y ∈ xs, ¬ y.Refused := fun y hy => hr y (List.mem_cons_of_mem _ hy)
    cases x with
    | obj ms =>
      -- The object is held, and decides how the list is written.
      have hfirst := hx.object ms rfl (.listFirst :: s) (Json.eventsAll xs ++ .arrayEnd :: rest)
        hxr fun hl => hlead _ rfl hl.2
      rw [Json.eventsAll, List.append_assoc, scan_pending_object, hfirst]
      simp only [exprHeld, exprFirstHeld]
      cases hhead : (Json.obj ms).item.head with
      | none =>
        simp only [exprMark, List.tail_cons, resume_ok]
        rw [scan_stream_elements htail htailr (by simp), prepend_prepend, text_list_of_head hhead]
        simp
      | some o =>
        simp only [exprMark, List.tail_cons, resume_ok]
        rw [scan_elements htail (by simp) htailr, scan_held_end hs, Json.item, Json.items_eq_map]
        simp [leadItems]
    | list ys =>
      have hhead : (Json.list ys).item.head = none := head_exprArray _
      rw [Json.eventsAll, List.append_assoc, scan_pending_stream hhead (by simp),
        hx.scan_stream_first hxr, scan_stream_elements htail htailr (by simp), prepend_prepend,
        prepend_prepend, text_list_of_head hhead]
      simp
    | scalar v =>
      cases hv : exprOp v with
      | none =>
        have hhead : (Json.scalar v).item.head = none := hv
        rw [Json.eventsAll, List.append_assoc, scan_pending_stream hhead (by simp),
          hx.scan_stream_first hxr, scan_stream_elements htail htailr (by simp), prepend_prepend,
          prepend_prepend, text_list_of_head hhead]
        simp
      | some o =>
        have hhold : scan (.listHold [] :: s)
            (Json.eventsAll (.scalar v :: xs) ++ .arrayEnd :: rest) =
            scan (.listHold (leadItems ((.scalar v :: xs).map Json.item)) :: s) (.arrayEnd :: rest) :=
          scan_lead h hlead hr
        rw [Json.eventsAll, List.append_assoc] at hhold ⊢
        rw [scan_pending_op hv, hhold, scan_held_end hs, Json.item, Json.items_eq_map]

theorem scan_pending_fails (h : ∀ x ∈ xs, Renders x)
    (hr : (∃ x ∈ xs.head?, x.Foreign) ∨ ∃ x ∈ xs, x.Refused) :
    Fails (scan (.pending .stream :: s) (Json.eventsAll xs ++ .arrayEnd :: rest)) := by
  cases xs with
  | nil => simp at hr
  | cons x xs =>
    have hx := h x List.mem_cons_self
    have htail : ∀ y ∈ xs, Renders y := fun y hy => h y (List.mem_cons_of_mem _ hy)
    -- A first element that is no object is refused for its own sake only.
    have hstream : x.item.head = none → (∀ ms, x ≠ .obj ms) →
        Fails (scan (.pending .stream :: s) (Json.eventsAll (x :: xs) ++ .arrayEnd :: rest)) := by
      intro hhead hobj
      have hnf : ¬ x.Foreign := by
        cases x with
        | obj ms => exact absurd rfl (hobj ms)
        | scalar v | list ys => exact id
      rw [Json.eventsAll, List.append_assoc, scan_pending_stream hhead hobj]
      apply Fails.prepend
      by_cases hxr : x.Refused
      · exact hx.streamed_fails _ _ _ _ rfl hxr
      · rw [hx.scan_stream_first hxr]
        exact (scan_stream_elements_fails htail (by simpa [hnf, hxr] using hr) (by simp)).prepend
    cases x with
    | obj ms =>
      rw [Json.eventsAll, List.append_assoc, scan_pending_object]
      by_cases hfail : (Json.obj ms).Refused ∨ (Json.obj ms).Foreign
      · exact hx.object_fails ms rfl _ _ (hfail.imp_right fun hf => ⟨rfl, hf⟩)
      · obtain ⟨hxr, hf⟩ := not_or.1 hfail
        rw [hx.object ms rfl _ _ hxr fun hl => hf hl.2]
        have hxs : ∃ y ∈ xs, y.Refused := by simpa [hf, hxr] using hr
        simp only [exprHeld, exprFirstHeld]
        cases (Json.obj ms).item.head with
        | none =>
          simp only [exprMark, List.tail_cons, resume_ok]
          exact (scan_stream_elements_fails htail hxs (by simp)).prepend
        | some o =>
          simp only [exprMark, List.tail_cons, resume_ok]
          exact (scan_elements_fails htail hxs).prepend
    | list ys => exact hstream (head_exprArray _) (by simp)
    | scalar v =>
      cases hv : exprOp v with
      | none => exact hstream hv (by simp)
      | some o =>
        have hfails : Fails (scan (.listHold [] :: s)
            (Json.eventsAll (.scalar v :: xs) ++ .arrayEnd :: rest)) := scan_lead_fails h hr
        rw [Json.eventsAll, List.append_assoc] at hfails ⊢
        rwa [scan_pending_op hv]

theorem renders_list (h : ∀ x ∈ xs, Renders x) : Renders (.list xs) where
  held s rest hs hr _ := by
    rw [Json.Refused, Json.refusedAll_iff, not_or] at hr
    rw [Json.events, List.cons_append, scan_cons, (exprStep_of_holdsDue hs).2.2, resume_ok,
      List.append_assoc, List.flatten_nil, prepend_nil, ← exprHeld_of_holdsDue hs]
    cases xs with
    | nil => rfl
    | cons x xs =>
      have hhold : scan (.pending .hold :: s) (Json.eventsAll (x :: xs) ++ ([.arrayEnd] ++ rest)) =
          scan (.listHold [] :: s) (Json.eventsAll (x :: xs) ++ ([.arrayEnd] ++ rest)) := by
        rw [Json.eventsAll, List.append_assoc, scan_pending_hold]
      rw [hhold, scan_lead h (fun y hy hf => hr.1 ⟨y, hy, hf⟩) fun y hy hyr => hr.2 ⟨y, hy, hyr⟩,
        Json.item, Json.items_eq_map]
      rfl
  held_fails s rest hs hr := by
    have hr := hr.resolve_right fun hl => hl.2
    rw [Json.Refused, Json.refusedAll_iff] at hr
    rw [Json.events, List.cons_append, scan_cons, (exprStep_of_holdsDue hs).2.2, resume_ok,
      List.append_assoc, List.flatten_nil, prepend_nil]
    cases xs with
    | nil => simp at hr
    | cons x xs =>
      have hfails : Fails (scan (.listHold [] :: s)
          (Json.eventsAll (x :: xs) ++ ([.arrayEnd] ++ rest))) := scan_lead_fails h hr
      rw [Json.eventsAll, List.append_assoc] at hfails ⊢
      rwa [scan_pending_hold]
  streamed s s' lead rest hs hr := by
    rw [Json.Refused, Json.refusedAll_iff, not_or] at hr
    rw [Json.events, List.cons_append, scan_cons, (exprStep_of_place hs).2.2,
      resume_exprStreamValue_some hs, List.append_nil, List.append_assoc, List.append_assoc,
      ← prepend_prepend]
    exact congrArg _ (scan_pending h (fun y hy hf => hr.1 ⟨y, hy, hf⟩)
      (fun y hy hyr => hr.2 ⟨y, hy, hyr⟩) (exprHeld_of_place hs))
  streamed_fails s s' lead rest hs hr := by
    rw [Json.Refused, Json.refusedAll_iff] at hr
    rw [Json.events, List.cons_append, scan_cons, (exprStep_of_place hs).2.2,
      resume_exprStreamValue_some hs, List.append_assoc]
    exact (scan_pending_fails h hr).prepend
  object _ h := by cases h
  object_fails _ h := by cases h

end List

theorem renders (t : Json ν) : Renders t :=
  Json.induction renders_scalar (fun _ => renders_list) (fun _ => renders_obj) t

end Run

/-- The render of a tree that is not refused is the text of its item and a line break. -/
theorem exprRender_events {t : Json ν} (h : ¬ t.Refused) :
    exprRender t.events = .ok (t.item.text ++ [.newline]) := by
  have hscan := (renders t).streamed [] [] [] [] rfl h
  rw [List.append_nil] at hscan
  rw [exprRender, hscan]
  simp [prepend, scan, settle, ending, exprFinish, Except.map, Except.bind]

/-- The render of a tree that is refused fails. -/
theorem exprRender_events_fails {t : Json ν} (h : t.Refused) : Fails (exprRender t.events) := by
  obtain ⟨failure, hscan⟩ := (renders t).streamed_fails [] [] [] [] rfl h
  rw [List.append_nil] at hscan
  rw [exprRender, hscan]
  exact ⟨failure, rfl⟩

/-- The text the render writes, whatever it streamed and whatever it held, is the text of the item of
the whole tree and a line break; and it writes one for every tree that is not refused. -/
theorem exprRender_eq_ok_iff {t : Json ν} {text : Text ν} :
    exprRender t.events = .ok text ↔ ¬ t.Refused ∧ text = t.item.text ++ [.newline] := by
  constructor
  · intro h
    by_cases hr : t.Refused
    · obtain ⟨failure, hfails⟩ := exprRender_events_fails hr
      rw [hfails] at h
      cases h
    · rw [exprRender_events hr] at h
      cases h
      exact ⟨hr, rfl⟩
  · rintro ⟨hr, rfl⟩
    exact exprRender_events hr

end TabnasExpr.Render

import TabnasExpr.Render.Recursive

/-!
# The sequences of events trees have

A builder reads events into a tree: a frame for each container it is inside, with what was read of it.
It refuses an event where no tree goes on with it, so a sequence it accepts is the sequence of the tree
it has built, and of no other (`Builder.run_eq_done_iff`).
-/

namespace TabnasExpr.Render

universe u

variable {ν : Type u}

/-- A container that is being read. -/
inductive Builder.Frame (ν : Type u) where
  | list (xs : List (Json ν))
  /-- The next key, or the end, is due. -/
  | key (ms : List (String × Json ν))
  /-- The value of a key is due. -/
  | value (ms : List (String × Json ν)) (k : String)

/-- What has been read: the containers open, the innermost first, or the whole tree. -/
inductive Builder (ν : Type u) where
  | within (fs : List (Builder.Frame ν))
  | done (t : Json ν)

namespace Builder

/-- A value is complete. -/
def place (t : Json ν) : List (Frame ν) → Option (Builder ν)
  | [] => some (done t)
  | .list xs :: fs => some (within (.list (xs ++ [t]) :: fs))
  | .value ms k :: fs => some (within (.key (ms ++ [(k, t)]) :: fs))
  | .key _ :: _ => none

/-- Whether a value is due. -/
def isDue : List (Frame ν) → Bool
  | .key _ :: _ => false
  | _ => true

/-- One event. -/
def step : Builder ν → Event ν → Option (Builder ν)
  | done _, _ => none
  | within fs, .scalar v => place (.scalar v) fs
  | within fs, .arrayStart => if isDue fs then some (within (.list [] :: fs)) else none
  | within fs, .objectStart => if isDue fs then some (within (.key [] :: fs)) else none
  | within (.key ms :: fs), .key k => some (within (.value ms k :: fs))
  | within (.list xs :: fs), .arrayEnd => place (.list xs) fs
  | within (.key ms :: fs), .objectEnd => place (.obj ms) fs
  | _, _ => none

/-- The events one after another. -/
def run : Builder ν → List (Event ν) → Option (Builder ν)
  | b, [] => some b
  | b, event :: events => (step b event).bind fun b => run b events

theorem run_append (b : Builder ν) (es fs : List (Event ν)) :
    run b (es ++ fs) = (run b es).bind fun b => run b fs := by
  induction es generalizing b with
  | nil => rfl
  | cons event es ih =>
    rw [List.cons_append, run, run, Option.bind_assoc]
    congr 1
    funext b
    exact ih b

/-! ## What has been read -/

/-- The events of a container up to here. -/
def Frame.events : Frame ν → List (Event ν)
  | list xs => .arrayStart :: Json.eventsAll xs
  | key ms => .objectStart :: Json.eventsMembers ms
  | value ms k => .objectStart :: (Json.eventsMembers ms ++ [.key k])

/-- The events of the containers open, from the outermost on. -/
def eventsWithin : List (Frame ν) → List (Event ν)
  | [] => []
  | f :: fs => eventsWithin fs ++ f.events

/-- The events that were read. -/
def events : Builder ν → List (Event ν)
  | within fs => eventsWithin fs
  | done t => t.events

theorem eventsAll_append (xs ys : List (Json ν)) :
    Json.eventsAll (xs ++ ys) = Json.eventsAll xs ++ Json.eventsAll ys := by
  induction xs with
  | nil => rfl
  | cons x xs ih => simp [Json.eventsAll, ih]

theorem eventsMembers_append (ms ns : List (String × Json ν)) :
    Json.eventsMembers (ms ++ ns) = Json.eventsMembers ms ++ Json.eventsMembers ns := by
  induction ms with
  | nil => rfl
  | cons m ms ih =>
    obtain ⟨k, x⟩ := m
    simp [Json.eventsMembers, ih]

theorem events_place {t : Json ν} {fs : List (Frame ν)} {b : Builder ν} (h : place t fs = some b) :
    b.events = eventsWithin fs ++ t.events := by
  cases fs with
  | nil =>
    cases h
    rfl
  | cons f fs =>
    cases f with
    | list xs =>
      cases h
      simp [events, eventsWithin, Frame.events, eventsAll_append, Json.eventsAll]
    | value ms k =>
      cases h
      simp [events, eventsWithin, Frame.events, eventsMembers_append, Json.eventsMembers]
    | key ms => cases h

theorem events_step {b b' : Builder ν} {event : Event ν} (h : step b event = some b') :
    b'.events = b.events ++ [event] := by
  cases b with
  | done t => cases h
  | within fs =>
    cases event with
    | scalar v => exact events_place h
    | arrayStart | objectStart =>
      rw [step] at h
      split_ifs at h with hd
      cases h
      rfl
    | key k =>
      rcases fs with _ | ⟨_ | ms | _, fs⟩
      · cases h
      · cases h
      · cases h
        simp [events, eventsWithin, Frame.events]
      · cases h
    | arrayEnd =>
      rcases fs with _ | ⟨xs | _ | _, fs⟩
      · cases h
      · rw [events_place h]
        simp [events, eventsWithin, Frame.events, Json.events]
      · cases h
      · cases h
    | objectEnd =>
      rcases fs with _ | ⟨_ | ms | _, fs⟩
      · cases h
      · cases h
      · rw [events_place h]
        simp [events, eventsWithin, Frame.events, Json.events]
      · cases h

theorem events_run {b b' : Builder ν} {es : List (Event ν)} (h : run b es = some b') :
    b'.events = b.events ++ es := by
  induction es generalizing b with
  | nil =>
    cases h
    simp
  | cons event es ih =>
    obtain ⟨b₁, hstep, hrun⟩ := Option.bind_eq_some_iff.1 h
    rw [ih hrun, events_step hstep]
    simp

/-! ## Every tree is read -/

theorem place_of_isDue {fs : List (Frame ν)} (h : isDue fs) (t : Json ν) :
    ∃ b, place t fs = some b := by
  match fs with
  | [] | .list xs :: fs | .value ms k :: fs => exact ⟨_, rfl⟩
  | .key ms :: fs => cases h

theorem run_elements {xs : List (Json ν)} (ys : List (Json ν)) (fs : List (Frame ν))
    (h : ∀ x ∈ xs, ∀ fs, isDue fs → run (within fs) x.events = place x fs) :
    run (within (.list ys :: fs)) (Json.eventsAll xs) = some (within (.list (ys ++ xs) :: fs)) := by
  induction xs generalizing ys with
  | nil => simp [Json.eventsAll, run]
  | cons x xs ih =>
    rw [Json.eventsAll, run_append, h x List.mem_cons_self _ rfl]
    show run (within (.list (ys ++ [x]) :: fs)) (Json.eventsAll xs) = _
    rw [ih (ys ++ [x]) fun y hy => h y (List.mem_cons_of_mem _ hy)]
    simp

theorem run_members {ms : List (String × Json ν)} (ns : List (String × Json ν)) (fs : List (Frame ν))
    (h : ∀ m ∈ ms, ∀ fs, isDue fs → run (within fs) m.2.events = place m.2 fs) :
    run (within (.key ns :: fs)) (Json.eventsMembers ms) = some (within (.key (ns ++ ms) :: fs)) := by
  induction ms generalizing ns with
  | nil => simp [Json.eventsMembers, run]
  | cons m ms ih =>
    obtain ⟨k, x⟩ := m
    show run (within (.value ns k :: fs)) (x.events ++ Json.eventsMembers ms) = _
    have hx : run (within (.value ns k :: fs)) x.events = place x (.value ns k :: fs) :=
      h (k, x) List.mem_cons_self _ rfl
    rw [run_append, hx]
    show run (within (.key (ns ++ [(k, x)]) :: fs)) (Json.eventsMembers ms) = _
    rw [ih (ns ++ [(k, x)]) fun m hm => h m (List.mem_cons_of_mem _ hm)]
    simp

/-- The events of a tree, where a value is due, complete that tree. -/
theorem run_tree (t : Json ν) (fs : List (Frame ν)) (hd : isDue fs) :
    run (within fs) t.events = place t fs := by
  induction t using Json.induction generalizing fs with
  | scalar v =>
    obtain ⟨b, hb⟩ := place_of_isDue hd (.scalar v)
    simp [Json.events, run, step, hb]
  | list xs ih =>
    obtain ⟨b, hb⟩ := place_of_isDue hd (.list xs)
    have hstart : step (within fs) .arrayStart = some (within (.list [] :: fs)) := by
      rw [step, if_pos hd]
    rw [Json.events, run, hstart, Option.bind_some, run_append, run_elements [] fs ih]
    simp [run, step, hb]
  | obj ms ih =>
    obtain ⟨b, hb⟩ := place_of_isDue hd (.obj ms)
    have hstart : step (within fs) .objectStart = some (within (.key [] :: fs)) := by
      rw [step, if_pos hd]
    rw [Json.events, run, hstart, Option.bind_some, run_append, run_members [] fs ih]
    simp [run, step, hb]

/-- The builder ends with a tree on the events of that tree, and on no others. -/
theorem run_eq_done_iff {es : List (Event ν)} {t : Json ν} :
    run (within []) es = some (done t) ↔ es = t.events := by
  constructor
  · intro h
    exact (events_run h).symm
  · rintro rfl
    exact run_tree t [] rfl

/-- No two trees have the same events. -/
theorem events_injective : Function.Injective (Json.events : Json ν → List (Event ν)) := by
  intro t t' h
  have hrun := run_eq_done_iff.2 h
  rw [run_eq_done_iff.2 rfl] at hrun
  exact Builder.done.inj (Option.some.inj hrun)

/-! ## What was read is the beginning of a tree -/

/-- A value is due in every container but the innermost. -/
def Nested : Builder ν → Prop
  | within fs => ∀ f ∈ fs.tail, isDue [f]
  | done _ => True

theorem nested_place {t : Json ν} {fs : List (Frame ν)} {b : Builder ν}
    (hfs : ∀ f ∈ fs.tail, isDue [f]) (h : place t fs = some b) : Nested b := by
  match fs, h with
  | [], h =>
    cases h
    trivial
  | .list xs :: fs, h | .value ms k :: fs, h =>
    cases h
    exact hfs

theorem nested_cons {f : Frame ν} {fs : List (Frame ν)} (hfs : ∀ g ∈ fs.tail, isDue [g])
    (hd : isDue fs) : Nested (within (f :: fs)) := by
  intro g hg
  cases fs with
  | nil => cases hg
  | cons f' fs =>
    rcases List.mem_cons.1 hg with rfl | hg
    · cases g with
      | list xs | value ms k => rfl
      | key ms => cases hd
    · exact hfs g hg

theorem nested_step {b b' : Builder ν} {event : Event ν} (hb : Nested b)
    (h : step b event = some b') : Nested b' := by
  cases b with
  | done t => cases h
  | within fs =>
    cases event with
    | scalar v => exact nested_place hb h
    | arrayStart | objectStart =>
      rw [step] at h
      split_ifs at h with hd
      cases h
      exact nested_cons hb hd
    | key k =>
      match fs, h with
      | .key ms :: fs, h =>
        cases h
        exact hb
    | arrayEnd =>
      match fs, h with
      | .list xs :: fs, h => exact nested_place (fun f hf => hb f (List.mem_of_mem_tail hf)) h
    | objectEnd =>
      match fs, h with
      | .key ms :: fs, h => exact nested_place (fun f hf => hb f (List.mem_of_mem_tail hf)) h

theorem nested_run {b b' : Builder ν} {es : List (Event ν)} (hb : Nested b)
    (h : run b es = some b') : Nested b' := by
  induction es generalizing b with
  | nil =>
    cases h
    exact hb
  | cons event es ih =>
    obtain ⟨b₁, hstep, hrun⟩ := Option.bind_eq_some_iff.1 h
    exact ih (nested_step hb hstep) hrun

/-- Once the value due in the innermost container is there, the ends of the containers complete a
tree. -/
theorem exists_ends (t : Json ν) {fs : List (Frame ν)} (hfs : ∀ f ∈ fs, isDue [f]) :
    ∃ es u, ((place t fs).bind fun b => run b es) = some (done u) := by
  induction fs generalizing t with
  | nil => exact ⟨[], t, rfl⟩
  | cons f fs ih =>
    have hfs' : ∀ g ∈ fs, isDue [g] := fun g hg => hfs g (List.mem_cons_of_mem _ hg)
    cases f with
    | list xs =>
      obtain ⟨es, u, h⟩ := ih (.list (xs ++ [t])) hfs'
      exact ⟨.arrayEnd :: es, u, h⟩
    | value ms k =>
      obtain ⟨es, u, h⟩ := ih (.obj (ms ++ [(k, t)])) hfs'
      exact ⟨.objectEnd :: es, u, h⟩
    | key ms => exact absurd (hfs _ List.mem_cons_self) (by simp [isDue])

/-- Events the builder accepts begin the events of a tree. -/
theorem exists_tree_of_run {es : List (Event ν)} {b : Builder ν} (h : run (within []) es = some b) :
    ∃ rest t, es ++ rest = Json.events t := by
  have hb : Nested b := by
    apply nested_run _ h
    intro f hf
    cases hf
  -- Whatever is due goes on to a tree.
  obtain ⟨rest, t, hrest⟩ : ∃ rest t, run b rest = some (done t) := by
    cases b with
    | done t => exact ⟨[], t, rfl⟩
    | within fs =>
      match fs, hb with
      | [], _ => exact ⟨[.scalar .null], .scalar .null, rfl⟩
      | .list xs :: fs, hb =>
        obtain ⟨rest, t, hrest⟩ := exists_ends (.list xs) hb
        exact ⟨.arrayEnd :: rest, t, hrest⟩
      | .key ms :: fs, hb =>
        obtain ⟨rest, t, hrest⟩ := exists_ends (.obj ms) hb
        exact ⟨.objectEnd :: rest, t, hrest⟩
      | .value ms k :: fs, hb =>
        obtain ⟨rest, t, hrest⟩ := exists_ends (.obj (ms ++ [(k, .scalar .null)])) hb
        exact ⟨.scalar .null :: .objectEnd :: rest, t, hrest⟩
  refine ⟨rest, t, run_eq_done_iff.1 ?_⟩
  rw [run_append, h, Option.bind_some, hrest]

end Builder

end TabnasExpr.Render

import TabnasExpr.Clib.Registry

/-!
# What the locks of the registry keep apart

In every state that is reached, the call that has the registry's writer lock is the only one between
`Lock` and `Unlock`, no reader is in the map while it is, and a parser is in the hands of the call that
has its lock.
-/

namespace TabnasExpr.Clib

open Linear

variable {ι σ P V D R : Type*} [DecidableEq ι] {host : Host σ P V D}

/-! ### The steps -/

/-- The steps of a call. -/
inductive Advances (host : Host σ P V D) (s : State ι σ (Reply P D)) (c : ι) :
    State ι σ (Reply P D) → Option (Reply P D) → Prop
  | refused {optsJSON r} : s.calls c = some (.load optsJSON) → host.build optsJSON = .error r →
      Advances host s c (s.goto c (.reply r)) none
  | built {optsJSON p} : s.calls c = some (.load optsJSON) → host.build optsJSON = .ok p →
      Advances host s c (s.goto c (.lock (.insert p))) none
  | lock {w} : s.calls c = some (.lock w) → s.reg.writer = none →
      Advances host s c ((s.setReg ⟨some c, s.reg.readers⟩).goto c (.drain w)) none
  | inserts {p} : s.calls c = some (.drain (.insert p)) → s.reg.readers = ∅ →
      Advances host s c (s.goto c (.readID p)) none
  | deletes {handle} : s.calls c = some (.drain (.delete handle)) → s.reg.readers = ∅ →
      Advances host s c (s.goto c (.delete handle)) none
  | readID {p} : s.calls c = some (.readID p) → Advances host s c (s.goto c (.writeID p s.nextID)) none
  | writeID {p n} : s.calls c = some (.writeID p n) →
      Advances host s c ((s.setNextID (int64 (n + 1))).goto c (.fetchID p)) none
  | fetchID {p} : s.calls c = some (.fetchID p) → Advances host s c (s.goto c (.store p s.nextID)) none
  | store {p id} : s.calls c = some (.store p id) →
      Advances host s c (((s.alloc p).1.setLoaded id (some (s.instances.last + 1))).goto c
        (.unlock (.handle id))) none
  | delete {handle} : s.calls c = some (.delete handle) →
      Advances host s c ((s.setLoaded handle none).goto c (.unlock .freed)) none
  | unlock {r} : s.calls c = some (.unlock r) →
      Advances host s c ((s.setReg ⟨none, s.reg.readers⟩).goto c (.reply r)) none
  | rlock {handle src} : s.calls c = some (.rlock handle src) → s.reg.writer = none →
      Advances host s c ((s.setReg ⟨s.reg.writer, insert c s.reg.readers⟩).goto c (.lookup handle src)) none
  | lookup {handle src} : s.calls c = some (.lookup handle src) →
      Advances host s c (s.goto c (.runlock (s.loaded handle) src)) none
  | missing {src} : s.calls c = some (.runlock none src) →
      Advances host s c ((s.setReg ⟨s.reg.writer, s.reg.readers.erase c⟩).goto c (.reply noParser)) none
  | found {g src} : s.calls c = some (.runlock (some g) src) →
      Advances host s c ((s.setReg ⟨s.reg.writer, s.reg.readers.erase c⟩).goto c (.muLock g src)) none
  | muLock {g src i} : s.calls c = some (.muLock g src) → s.instances.cell g = some i → i.mu = none →
      Advances host s c ((s.setInstance g fun i => { i with mu := some c }).goto c (.parse g src)) none
  | parse {g src i} : s.calls c = some (.parse g src) → s.instances.cell g = some i →
      Advances host s c (s.goto c (.parsed g src i.parse)) none
  | parsed {g src p} : s.calls c = some (.parsed g src p) →
      Advances host s c ((s.setInstance g fun i => { i with parse := (host.safeParse p src).2 }).goto c
        (.muUnlock g (host.answer (host.safeParse p src).1))) none
  | muUnlock {g r} : s.calls c = some (.muUnlock g r) →
      Advances host s c ((s.setInstance g fun i => { i with mu := none }).goto c (.reply r)) none
  | reply {r} : s.calls c = some (.reply r) → Advances host s c (s.goto c (.returned r)) (some r)

variable {s s' : State ι σ (Reply P D)} {c d : ι} {r : Option (Reply P D)}

theorem advances (h : advance host s c = some (s', r)) : Advances host s c s' r := by
  unfold advance at h
  split at h <;> try contradiction
  · next optsJSON hc =>
    split at h
    · next hb => cases h; exact .refused hc hb
    · next hb => cases h; exact .built hc hb
  · next hc =>
    split_ifs at h with hw
    cases h; exact .lock hc hw
  · next w hc =>
    split_ifs at h with hr
    cases w with
    | insert p => cases h; exact .inserts hc hr
    | delete handle => cases h; exact .deletes hc hr
  · next hc => cases h; exact .readID hc
  · next hc => cases h; exact .writeID hc
  · next hc => cases h; exact .fetchID hc
  · next hc => cases h; exact .store hc
  · next hc => cases h; exact .delete hc
  · next hc => cases h; exact .unlock hc
  · next hc =>
    split_ifs at h with hw
    cases h; exact .rlock hc hw
  · next hc => cases h; exact .lookup hc
  · next g src hc =>
    cases g with
    | none => cases h; exact .missing hc
    | some g => cases h; exact .found hc
  · next hc =>
    obtain ⟨i, hi, h⟩ := Option.bind_eq_some_iff.1 h
    split_ifs at h with hm
    cases h; exact .muLock hc hi hm
  · next hc =>
    obtain ⟨i, hi, h⟩ := Option.map_eq_some_iff.1 h
    cases h; exact .parse hc hi
  · next hc => cases h; exact .parsed hc
  · next hc => cases h; exact .muUnlock hc
  · next hc => cases h; exact .reply hc

theorem Advances.calls_of_ne (ha : Advances host s c s' r) (hd : d ≠ c) : s'.calls d = s.calls d := by
  cases ha <;> simp [hd]

/-! ### Where a call is -/

namespace Pc

/-- From the moment the call keeps the other writers out. -/
def Writing : Pc σ R → Prop
  | .drain _ | .readID _ | .writeID _ _ | .fetchID _ | .store _ _ | .delete _ | .unlock _ => True
  | _ => False

/-- Between `reg.Lock` and `reg.Unlock`. -/
def Alone : Pc σ R → Prop
  | .readID _ | .writeID _ _ | .fetchID _ | .store _ _ | .delete _ | .unlock _ => True
  | _ => False

/-- Between `reg.RLock` and `reg.RUnlock`. -/
def Reading : Pc σ R → Prop
  | .lookup _ _ | .runlock _ _ => True
  | _ => False

/-- The new number is in `nextID`, and no instance is under it. -/
def Counting : Pc σ R → Prop
  | .fetchID _ | .store _ _ => True
  | _ => False

/-- The call has another number than that in `nextID`. -/
def Stale (n : ℤ) : Pc σ R → Prop
  | .writeID _ m | .store _ m => m ≠ n
  | _ => False

/-- Between `g.mu.Lock` and `g.mu.Unlock`. -/
def Holds (g : ℕ) : Pc σ R → Prop
  | .parse g' _ | .parsed g' _ _ | .muUnlock g' _ => g' = g
  | _ => False

/-- The call has found the instance. -/
def Uses (g : ℕ) : Pc σ R → Prop
  | .runlock g' _ => g' = some g
  | .muLock g' _ | .parse g' _ | .parsed g' _ _ | .muUnlock g' _ => g' = g
  | _ => False

end Pc

/-- The call is where `Q` says. -/
def State.At (s : State ι σ R) (Q : Pc σ R → Prop) (c : ι) : Prop := ∃ pc, s.calls c = some pc ∧ Q pc

section At

variable {t : State ι σ R} {Q : Pc σ R → Prop} {pc : Pc σ R}

omit [DecidableEq ι] in
theorem at_of_calls (h : t.calls c = some pc) : t.At Q c ↔ Q pc := by simp [State.At, h]

theorem at_goto : (t.goto d pc).At Q c ↔ if c = d then Q pc else t.At Q c := by
  by_cases h : c = d
  · simp [State.At, State.goto, h]
  · simp [State.At, State.goto, h]

end At

/-- What counting in an `int64` comes to. -/
def numbered (n : ℕ) : ℤ := int64 n

theorem int64_numbered (n : ℕ) : int64 (numbered n + 1) = numbered (n + 1) := by
  simp [numbered, int64]

/-- What holds of every state that is reached. -/
structure Guarded (s : State ι σ R) : Prop where
  writer : ∀ c, s.reg.writer = some c ↔ s.At Pc.Writing c
  reader : ∀ c, c ∈ s.reg.readers ↔ s.At Pc.Reading c
  alone : ∀ c, s.At Pc.Alone c → s.reg.readers = ∅
  holder : ∀ g i, s.instances.cell g = some i → ∀ c, i.mu = some c ↔ s.At (Pc.Holds g) c
  used : ∀ c g, s.At (Pc.Uses g) c → s.instances.cell g ≠ none
  loaded : ∀ handle g, s.loaded handle = some g → handle = numbered g ∧ s.instances.cell g ≠ none
  counting : ∀ c, s.At Pc.Counting c → s.nextID = numbered (s.instances.last + 1)
  counted : (∀ c, ¬ s.At Pc.Counting c) → s.nextID = numbered s.instances.last
  current : ∀ c, ¬ s.At (Pc.Stale s.nextID) c
  kept : ∀ c g src p i, s.calls c = some (.parsed g src p) → s.instances.cell g = some i → i.parse = p

section Locks

/-- The writer lock passes from call to call. -/
theorem writer_advance (h : Guarded s) (ha : Advances host s c s' r) (d : ι) :
    s'.reg.writer = some d ↔ s'.At Pc.Writing d := by
  have hd := h.writer d
  have hc := h.writer c
  cases ha <;> rw [at_goto] <;> grind [Pc.Writing, State.At]

theorem reader_advance (h : Guarded s) (ha : Advances host s c s' r) (d : ι) :
    d ∈ s'.reg.readers ↔ s'.At Pc.Reading d := by
  have hd := h.reader d
  have hc := h.reader c
  cases ha <;> rw [at_goto] <;> grind [Pc.Reading, State.At]

theorem Pc.Alone.writing {pc : Pc σ R} (h : pc.Alone) : pc.Writing := by
  cases pc <;> trivial

theorem Pc.Counting.alone {pc : Pc σ R} (h : pc.Counting) : pc.Alone := by
  cases pc <;> trivial

omit [DecidableEq ι] in
theorem State.At.mono {t : State ι σ R} {Q Q' : Pc σ R → Prop} (h : t.At Q d) (hQ : ∀ pc, Q pc → Q' pc) :
    t.At Q' d := by
  obtain ⟨pc, hpc, hq⟩ := h
  exact ⟨pc, hpc, hQ pc hq⟩

/-- While a call is alone in the registry, no call starts to read. -/
theorem alone_advance (h : Guarded s) (ha : Advances host s c s' r) (d : ι) (hd : s'.At Pc.Alone d) :
    s'.reg.readers = ∅ := by
  have hd' := h.alone d
  have hw : s.At Pc.Alone d → s.reg.writer = some d := fun hd =>
    (h.writer d).2 (hd.mono fun _ => Pc.Alone.writing)
  have hc := h.writer c
  cases ha <;> rw [at_goto] at hd <;> grind [Pc.Alone, Pc.Writing, State.At]

/-- The instances that were there are, and are used where they were. -/
theorem used_advance (h : Guarded s) (ha : Advances host s c s' r) (d : ι) (g : ℕ)
    (hd : s'.At (Pc.Uses g) d) : s'.instances.cell g ≠ none := by
  have hd' := h.used d g
  have hc := h.used c g
  have hl : ∀ handle, s.loaded handle = some g → s.instances.cell g ≠ none := fun handle hl =>
    (h.loaded handle g hl).2
  cases ha <;> rw [at_goto] at hd <;> grind [Pc.Uses, State.At, Option.map_eq_none_iff]

theorem Pc.Holds.uses {pc : Pc σ R} {g : ℕ} (h : pc.Holds g) : pc.Uses g := by
  cases pc <;> trivial

omit [DecidableEq ι] in
theorem Guarded.not_holds_next (h : Guarded s) (d : ι) : ¬ s.At (Pc.Holds (s.instances.last + 1)) d :=
  fun hd => h.used d _ (hd.mono fun _ => Pc.Holds.uses) s.instances.cell_next

omit [DecidableEq ι] in
/-- Only one call has the parser. -/
theorem Guarded.holds_unique (h : Guarded s) {g : ℕ} (hc : s.At (Pc.Holds g) c)
    (hd : s.At (Pc.Holds g) d) : d = c := by
  obtain ⟨i, hi⟩ := Option.ne_none_iff_exists'.1 (h.used c g (hc.mono fun _ => Pc.Holds.uses))
  exact Option.some.inj (((h.holder g i hi d).2 hd).symm.trans ((h.holder g i hi c).2 hc))

/-- A parser's lock passes from call to call. -/
theorem holder_advance (h : Guarded s) (ha : Advances host s c s' r) (g : ℕ) (i : Instance ι σ)
    (hg : s'.instances.cell g = some i) (d : ι) : i.mu = some d ↔ s'.At (Pc.Holds g) d := by
  have hn := h.not_holds_next d
  have hu : s.At (Pc.Holds g) c → s.At (Pc.Holds g) d → d = c := fun hc hd => h.holds_unique hc hd
  have hh := h.holder g
  cases ha <;> rw [at_goto] <;> grind [Pc.Holds, Pc.Uses, State.At, Option.map_eq_some_iff]

end Locks

/-! ### The map and its numbers -/

section Numbers

omit [DecidableEq ι] in
/-- The number an instance gets is the one its load made. -/
theorem Guarded.store_id (h : Guarded s) {p : σ} {id : ℤ} (hc : s.calls c = some (.store p id)) :
    id = numbered (s.instances.last + 1) := by
  have hid : id = s.nextID := by
    by_contra hne
    exact h.current c ((at_of_calls hc).2 hne)
  exact hid.trans (h.counting c ((at_of_calls hc).2 trivial))

theorem loaded_advance (h : Guarded s) (ha : Advances host s c s' r) (handle : ℤ) (g : ℕ)
    (hg : s'.loaded handle = some g) : handle = numbered g ∧ s'.instances.cell g ≠ none := by
  have hl := h.loaded handle g
  have hn : ∀ p id, s.calls c = some (.store p id) → id = numbered (s.instances.last + 1) :=
    fun p id => h.store_id
  cases ha <;> grind [Option.map_eq_none_iff]

omit [DecidableEq ι] in
/-- Only one call is at the numbers. -/
theorem Guarded.alone_unique (h : Guarded s) (hc : s.At Pc.Alone c) (hd : s.At Pc.Alone d) : d = c :=
  Option.some.inj (((h.writer d).2 (hd.mono fun _ => Pc.Alone.writing)).symm.trans
    ((h.writer c).2 (hc.mono fun _ => Pc.Alone.writing)))

theorem counting_advance (h : Guarded s) (ha : Advances host s c s' r) (d : ι)
    (hd : s'.At Pc.Counting d) : s'.nextID = numbered (s'.instances.last + 1) := by
  have hn := h.counting d
  have ho : s.At Pc.Alone c → ∀ d, s.At Pc.Alone d → d = c := fun hc d hd => h.alone_unique hc hd
  have hx : ∀ d, s.At Pc.Counting d → s.At Pc.Alone d := fun d hd => hd.mono fun _ => Pc.Counting.alone
  have h0 := h.counted
  have hc := h.current c
  have hs := int64_numbered
  cases ha <;> rw [at_goto] at hd <;> grind [Pc.Counting, Pc.Stale, Pc.Alone, State.At]

theorem counted_advance (h : Guarded s) (ha : Advances host s c s' r)
    (hd : ∀ d, ¬ s'.At Pc.Counting d) : s'.nextID = numbered s'.instances.last := by
  have hc := hd c
  by_cases hs : s.At Pc.Counting c
  · have hn := h.counting c hs
    cases ha <;> rw [at_goto] at hc <;> grind [Pc.Counting, State.At]
  · have hn : s.nextID = numbered s.instances.last := by
      refine h.counted fun d => ?_
      by_cases hdc : d = c
      · exact hdc ▸ hs
      · have hd' := hd d
        rwa [State.At, ha.calls_of_ne hdc] at hd'
    cases ha <;> rw [at_goto] at hc <;> grind [Pc.Counting, State.At]

theorem Pc.Stale.alone {pc : Pc σ R} {n : ℤ} (h : pc.Stale n) : pc.Alone := by
  cases pc <;> trivial

theorem current_advance (h : Guarded s) (ha : Advances host s c s' r) (d : ι) :
    ¬ s'.At (Pc.Stale s'.nextID) d := by
  have hd := h.current d
  have ho : s.At Pc.Alone c → s.At Pc.Alone d → d = c := fun hc hd => h.alone_unique hc hd
  have hx : ∀ n, s.At (Pc.Stale n) d → s.At Pc.Alone d := fun n hd => hd.mono fun _ => Pc.Stale.alone
  cases ha <;> rw [at_goto] <;> grind [Pc.Stale, Pc.Alone, State.At]

theorem kept_advance (h : Guarded s) (ha : Advances host s c s' r) (d : ι) (g : ℕ) (src : String)
    (p : σ) (i : Instance ι σ) (hd : s'.calls d = some (.parsed g src p))
    (hi : s'.instances.cell g = some i) : i.parse = p := by
  have hk := h.kept d g src p
  have hn := h.not_holds_next d
  have hu : s.At (Pc.Holds g) c → s.At (Pc.Holds g) d → d = c := fun hc hd => h.holds_unique hc hd
  cases ha <;> grind [Pc.Holds, State.At, Option.map_eq_some_iff]

end Numbers

/-! ### Every state -/

omit [DecidableEq ι] in
theorem guarded_init : Guarded (State.init ι σ R) := by
  constructor <;> simp [State.init, State.At, Store.empty, numbered, int64]

theorem at_start {Q : Pc σ (Reply P D) → Prop} {op : Call} (hc : s.calls c = none)
    (hQ : ¬ Q (start op)) : (s.goto c (start op)).At Q d ↔ s.At Q d := by
  rw [at_goto]
  split_ifs with h
  · subst h
    simp [hQ, State.At, hc]
  · rfl

/-- A call that is made is nowhere yet. -/
theorem Guarded.invoke (h : Guarded s) (op : Call) (hc : s.calls c = none) :
    Guarded (s.goto c (start op)) := by
  have hat {Q : Pc σ (Reply P D) → Prop} (hQ : ¬ Q (start op)) (d : ι) :
      (s.goto c (start op)).At Q d ↔ s.At Q d := at_start hc hQ
  refine ⟨fun d => ?_, fun d => ?_, fun d hd => ?_, fun g i hi d => ?_, fun d g hd => ?_, h.loaded,
    fun d hd => ?_, fun hd => ?_, fun d => ?_, fun d g src p i hd => ?_⟩
  · rw [hat (by cases op <;> exact id)]
    exact h.writer d
  · rw [hat (by cases op <;> exact id)]
    exact h.reader d
  · exact h.alone d ((hat (by cases op <;> exact id) d).1 hd)
  · rw [hat (by cases op <;> exact id)]
    exact h.holder g i hi d
  · exact h.used d g ((hat (by cases op <;> exact id) d).1 hd)
  · exact h.counting d ((hat (by cases op <;> exact id) d).1 hd)
  · exact h.counted fun d hd' => hd d ((hat (by cases op <;> exact id) d).2 hd')
  · rw [hat (by cases op <;> exact id)]
    exact h.current d
  · rw [State.calls_goto] at hd
    split_ifs at hd
    · cases op <;> cases hd
    · exact h.kept d g src p i hd

theorem Guarded.advance (h : Guarded s) (ha : Advances host s c s' r) : Guarded s' where
  writer := writer_advance h ha
  reader := reader_advance h ha
  alone := alone_advance h ha
  holder := holder_advance h ha
  used := used_advance h ha
  loaded := loaded_advance h ha
  counting := counting_advance h ha
  counted := counted_advance h ha
  current := current_advance h ha
  kept := kept_advance h ha

/-- Every state that is reached is guarded. -/
theorem Reaches.guarded {h : List (Event ι Call (Reply P D))} (hs : Reaches host s h) : Guarded s := by
  induction hs with
  | init => exact guarded_init
  | invoke c op _ hc ih => exact ih.invoke op hc
  | step c r _ ha ih => exact ih.advance (advances ha)

/-! ### Data races -/

/-- What the calls share. -/
inductive Location
  | nextID
  | loaded
  | parser (g : ℕ)

namespace Pc

/-- The call writes there next; a parse may write the parser at any time. -/
def Writes : Pc σ R → Location → Prop
  | .writeID _ _, .nextID => True
  | .store _ _, .loaded | .delete _, .loaded => True
  | .parse g _, .parser g' | .parsed g _ _, .parser g' => g = g'
  | _, _ => False

/-- The call reads there next. -/
def Reads : Pc σ R → Location → Prop
  | .readID _, .nextID | .fetchID _, .nextID => True
  | .lookup _ _, .loaded => True
  | _, _ => False

theorem Writes.holds {pc : Pc σ R} {g : ℕ} (h : pc.Writes (.parser g)) : pc.Holds g := by
  cases pc <;> simp_all [Writes, Holds]

theorem Writes.alone {pc : Pc σ R} {l : Location} (h : pc.Writes l) (hl : ∀ g, l ≠ .parser g) :
    pc.Alone := by
  cases pc <;> cases l <;> simp_all [Writes, Alone]

theorem Reads.registry {pc : Pc σ R} {l : Location} (h : pc.Reads l) :
    (∀ g, l ≠ .parser g) ∧ (pc.Alone ∨ pc.Reading) := by
  cases pc <;> cases l <;> simp_all [Reads, Alone, Reading]

end Pc

/-- No two calls are at one location while one of them writes it. -/
theorem no_race {h : List (Event ι Call (Reply P D))} (hs : Reaches host s h)
    {pc pc' : Pc σ (Reply P D)} {l : Location} (hc : s.calls c = some pc) (hd : s.calls d = some pc')
    (hcd : c ≠ d) (hw : pc.Writes l) : ¬ (pc'.Reads l ∨ pc'.Writes l) := by
  have hG := hs.guarded
  -- A writer of the registry is alone in it, and no call with the writer lock or a reader lock is.
  have hregistry (hl : ∀ g, l ≠ .parser g) (hd' : pc'.Alone ∨ pc'.Reading) : False := by
    have hA : s.At Pc.Alone c := ⟨pc, hc, hw.alone hl⟩
    rcases hd' with hA' | hR
    · exact hcd (hG.alone_unique ⟨pc', hd, hA'⟩ hA)
    · have hm := (hG.reader d).2 ⟨pc', hd, hR⟩
      simp [hG.alone c hA] at hm
  rintro (hr | hw')
  · exact hregistry hr.registry.1 hr.registry.2
  · by_cases hl : ∀ g, l ≠ .parser g
    · exact hregistry hl (Or.inl (hw'.alone hl))
    · push Not at hl
      obtain ⟨g, rfl⟩ := hl
      exact hcd (hG.holds_unique ⟨pc', hd, hw'.holds⟩ ⟨pc, hc, hw.holds⟩)

/-- A parse waits while another is at work with the parser. -/
theorem no_race_waiting : ∃ s h, Reaches counting s h ∧ s.calls 2 = some (.parsed 1 "1+1" 0) ∧
    s.calls 3 = some (.muLock 1 "2") ∧
    ¬ (Pc.Reads (.muLock 1 "2" : Pc ℕ (Reply Unit (String × ℕ))) (.parser 1) ∨
      Pc.Writes (.muLock 1 "2" : Pc ℕ (Reply Unit (String × ℕ))) (.parser 1)) := by
  obtain ⟨s, h, hs, hc⟩ : ∃ s h, Reaches counting s h ∧
      (s.calls 2, s.calls 3) = (some (.parsed 1 "1+1" 0), some (.muLock 1 "2")) :=
    Reaches.of_follow (l := (1, some (.load "")) :: List.replicate 9 (1, none) ++
      (2, some (.parse 1 "1+1")) :: List.replicate 5 (2, none) ++ (3, some (.parse 1 "2")) ::
      List.replicate 3 (3, none)) (f := fun x => (x.1.calls 2, x.1.calls 3)) rfl
  obtain ⟨h₂, h₃⟩ := Prod.mk.inj hc
  exact ⟨s, h, hs, h₂, h₃, no_race hs h₂ h₃ (by decide) rfl⟩

end TabnasExpr.Clib

import Mathlib.Algebra.Group.Nat.Defs
import Mathlib.Data.Finset.Basic
import Mathlib.Data.Int.Init
import Mathlib.Logic.Function.Basic
import TabnasExpr.Lib.Linear
import TabnasExpr.Lib.Store

/-!
# The registry of the C library

The C library keeps the parsers it has loaded in a map from handles, which a reader/writer lock guards,
and each parser with a lock of its own.  Calls come from any threads at any time; a state holds how far
each call has come, and `advance` is the next step of one of them.  `apply` is what the registry is
for: the calls one at a time.
-/

namespace TabnasExpr.Clib

open Linear

/-! ### Calls and replies -/

/-- A call of the library: `loadGrammar`, `parseWith` or `freeGrammar`. -/
inductive Call
  | load (optsJSON : String)
  | parse (handle : ℤ) (src : String)
  | free (handle : ℤ)

/-- A reply document: `failDoc`, a handle, a rejection with the payload of its error, or the document of
an accepted value; `freeGrammar` replies nothing. -/
inductive Reply (P D : Type*)
  | failDoc (code message : String)
  | handle (id : ℤ)
  | reject (error : P)
  | acceptDoc (doc : D)
  | freed

/-- An error of a parse. -/
structure Error (P : Type*) where
  isPanic : Bool
  isInternal : Bool
  message : String
  payload : P

/-- What the registry is given: how many members a JSON object has, if the text is one, the construction
of a parser, a parse, which leaves the parser in another state, and the document of a value. -/
structure Host (σ P V D : Type*) where
  members : String → Option ℕ
  safeNew : String → Except String σ
  safeParse : σ → String → Except (Error P) V × σ
  acceptDoc : V → D

def libName : String := "libtabnasexpr"

def firstLine (s : String) : String := String.ofList (s.toList.takeWhile (· ≠ '\n'))

def noParser {P D : Type*} : Reply P D := .failDoc "handle" "no parser is loaded under that handle"

/-- An `int64`. -/
def int64 (n : ℤ) : ℤ := Int.bmod n (2 ^ 64)

namespace Host

variable {σ P V D : Type*} (host : Host σ P V D)

/-- The part of `loadGrammar` before the registry: the parser, or the reply of a call that has none. -/
def build (optsJSON : String) : Except (Reply P D) σ :=
  let construct := match host.safeNew optsJSON with
    | .error message => .error (.failDoc "grammar" (firstLine message))
    | .ok p => .ok p
  if optsJSON = "" then construct else
    match host.members optsJSON with
    | none => .error (.failDoc "usage" "options must be a JSON object")
    | some 0 => construct
    | some (_ + 1) => .error (.failDoc "usage" (libName ++ " accepts no options yet; pass NULL (or {})"))

/-- The part of `parseWith` after the parse. -/
def answer : Except (Error P) V → Reply P D
  | .ok val => .acceptDoc (host.acceptDoc val)
  | .error err =>
    if err.isPanic || err.isInternal then .failDoc "internal" (firstLine err.message)
    else .reject err.payload

end Host

/-! ### Locks -/

/-- `sync.RWMutex`: a writer first keeps others out, then waits for the readers there are. -/
structure RWMutex (ι : Type*) where
  writer : Option ι
  readers : Finset ι

/-- A parser with its lock. -/
structure Instance (ι σ : Type*) where
  mu : Option ι
  parse : σ

/-! ### States -/

/-- What a writer of the registry is to do. -/
inductive Write (σ : Type*)
  | insert (p : σ)
  | delete (handle : ℤ)

/-- How far a call has come. -/
inductive Pc (σ R : Type*)
  /-- Before the registry is touched. -/
  | load (optsJSON : String)
  /-- `reg.Lock`, before the other writers. -/
  | lock (w : Write σ)
  /-- `reg.Lock`, before the readers there are. -/
  | drain (w : Write σ)
  /-- `nextID++`, which reads and then writes. -/
  | readID (p : σ)
  | writeID (p : σ) (n : ℤ)
  /-- `id := nextID` -/
  | fetchID (p : σ)
  /-- `loaded[id] = &instance{parse: p}` -/
  | store (p : σ) (id : ℤ)
  | delete (handle : ℤ)
  | unlock (r : R)
  | rlock (handle : ℤ) (src : String)
  /-- `g := loaded[handle]` -/
  | lookup (handle : ℤ) (src : String)
  | runlock (g : Option ℕ) (src : String)
  | muLock (g : ℕ) (src : String)
  /-- `safeParse`, which finds the parser in one state and leaves it in another. -/
  | parse (g : ℕ) (src : String)
  | parsed (g : ℕ) (src : String) (p : σ)
  | muUnlock (g : ℕ) (r : R)
  | reply (r : R)
  | returned (r : R)

/-- The state of the library, with `nextID`, `loaded` and the instances there are. -/
structure State (ι σ R : Type*) where
  reg : RWMutex ι
  nextID : ℤ
  loaded : ℤ → Option ℕ
  instances : Store (Instance ι σ)
  calls : ι → Option (Pc σ R)

def Write.enter {σ R : Type*} : Write σ → Pc σ R
  | .insert p => .readID p
  | .delete handle => .delete handle

namespace State

variable {ι σ R : Type*} (s : State ι σ R) (c : ι)

def goto [DecidableEq ι] (pc : Pc σ R) : State ι σ R := { s with calls := Function.update s.calls c (some pc) }

def setReg (reg : RWMutex ι) : State ι σ R := { s with reg := reg }

def setNextID (n : ℤ) : State ι σ R := { s with nextID := n }

def setLoaded (handle : ℤ) (g : Option ℕ) : State ι σ R :=
  { s with loaded := Function.update s.loaded handle g }

def setInstance (g : ℕ) (f : Instance ι σ → Instance ι σ) : State ι σ R :=
  { s with instances := s.instances.modify g f }

/-- A new instance and its address. -/
def alloc (p : σ) : State ι σ R × ℕ :=
  ({ s with instances := (s.instances.alloc ⟨none, p⟩).1 }, (s.instances.alloc ⟨none, p⟩).2)

section Fields

variable {s c} {pc : Pc σ R} {reg : RWMutex ι} {n handle x : ℤ} {g j : ℕ} {o : Option ℕ} {p : σ}
  {f : Instance ι σ → Instance ι σ} {d : ι}

section Goto

variable [DecidableEq ι]

@[simp, grind =] theorem calls_goto :
    (s.goto c pc).calls d = if d = c then some pc else s.calls d := Function.update_apply ..

@[simp, grind =] theorem reg_goto : (s.goto c pc).reg = s.reg := rfl

@[simp, grind =] theorem nextID_goto : (s.goto c pc).nextID = s.nextID := rfl

@[simp, grind =] theorem loaded_goto : (s.goto c pc).loaded x = s.loaded x := rfl

@[simp, grind =] theorem instances_goto : (s.goto c pc).instances = s.instances := rfl

end Goto

@[simp, grind =] theorem calls_setReg : (s.setReg reg).calls d = s.calls d := rfl

@[simp, grind =] theorem reg_setReg : (s.setReg reg).reg = reg := rfl

@[simp, grind =] theorem nextID_setReg : (s.setReg reg).nextID = s.nextID := rfl

@[simp, grind =] theorem loaded_setReg : (s.setReg reg).loaded x = s.loaded x := rfl

@[simp, grind =] theorem instances_setReg : (s.setReg reg).instances = s.instances := rfl

@[simp, grind =] theorem calls_setNextID : (s.setNextID n).calls d = s.calls d := rfl

@[simp, grind =] theorem reg_setNextID : (s.setNextID n).reg = s.reg := rfl

@[simp, grind =] theorem nextID_setNextID : (s.setNextID n).nextID = n := rfl

@[simp, grind =] theorem loaded_setNextID : (s.setNextID n).loaded x = s.loaded x := rfl

@[simp, grind =] theorem instances_setNextID : (s.setNextID n).instances = s.instances := rfl

@[simp, grind =] theorem calls_setLoaded : (s.setLoaded handle o).calls d = s.calls d := rfl

@[simp, grind =] theorem reg_setLoaded : (s.setLoaded handle o).reg = s.reg := rfl

@[simp, grind =] theorem nextID_setLoaded : (s.setLoaded handle o).nextID = s.nextID := rfl

@[simp, grind =] theorem loaded_setLoaded :
    (s.setLoaded handle o).loaded x = if x = handle then o else s.loaded x := Function.update_apply ..

@[simp, grind =] theorem instances_setLoaded : (s.setLoaded handle o).instances = s.instances := rfl

@[simp, grind =] theorem calls_setInstance : (s.setInstance g f).calls d = s.calls d := rfl

@[simp, grind =] theorem reg_setInstance : (s.setInstance g f).reg = s.reg := rfl

@[simp, grind =] theorem nextID_setInstance : (s.setInstance g f).nextID = s.nextID := rfl

@[simp, grind =] theorem loaded_setInstance : (s.setInstance g f).loaded x = s.loaded x := rfl

@[simp, grind =] theorem cell_setInstance : (s.setInstance g f).instances.cell j =
    if j = g then (s.instances.cell g).map f else s.instances.cell j := rfl

@[simp, grind =] theorem last_setInstance :
    (s.setInstance g f).instances.last = s.instances.last := rfl

@[simp, grind =] theorem calls_alloc : (s.alloc p).1.calls d = s.calls d := rfl

@[simp, grind =] theorem reg_alloc : (s.alloc p).1.reg = s.reg := rfl

@[simp, grind =] theorem nextID_alloc : (s.alloc p).1.nextID = s.nextID := rfl

@[simp, grind =] theorem loaded_alloc : (s.alloc p).1.loaded x = s.loaded x := rfl

@[simp, grind =] theorem cell_alloc : (s.alloc p).1.instances.cell j =
    if j = s.instances.last + 1 then some ⟨none, p⟩ else s.instances.cell j := rfl

@[simp, grind =] theorem last_alloc : (s.alloc p).1.instances.last = s.instances.last + 1 := rfl

end Fields

/-- The state before any call. -/
def init (ι σ R : Type*) : State ι σ R := ⟨⟨none, ∅⟩, 0, fun _ => none, Store.empty, fun _ => none⟩

end State

section Advance

variable {ι σ P V D : Type*} [DecidableEq ι] (host : Host σ P V D)

/-- A call is made. -/
def start : Call → Pc σ (Reply P D)
  | .load optsJSON => .load optsJSON
  | .parse handle src => .rlock handle src
  | .free handle => .lock (.delete handle)

/-- The next step of a call, with what it returns if it does; there is none while it waits for a lock. -/
def advance (s : State ι σ (Reply P D)) (c : ι) : Option (State ι σ (Reply P D) × Option (Reply P D)) :=
  match s.calls c with
  | none | some (.returned _) => none
  | some (.load optsJSON) =>
    match host.build optsJSON with
    | .error r => some (s.goto c (.reply r), none)
    | .ok p => some (s.goto c (.lock (.insert p)), none)
  | some (.lock w) =>
    if s.reg.writer = none then some ((s.setReg ⟨some c, s.reg.readers⟩).goto c (.drain w), none) else none
  | some (.drain w) => if s.reg.readers = ∅ then some (s.goto c w.enter, none) else none
  | some (.readID p) => some (s.goto c (.writeID p s.nextID), none)
  | some (.writeID p n) => some ((s.setNextID (int64 (n + 1))).goto c (.fetchID p), none)
  | some (.fetchID p) => some (s.goto c (.store p s.nextID), none)
  | some (.store p id) =>
    let (s, g) := s.alloc p
    some ((s.setLoaded id (some g)).goto c (.unlock (.handle id)), none)
  | some (.delete handle) => some ((s.setLoaded handle none).goto c (.unlock .freed), none)
  | some (.unlock r) => some ((s.setReg ⟨none, s.reg.readers⟩).goto c (.reply r), none)
  | some (.rlock handle src) =>
    if s.reg.writer = none then
      some ((s.setReg ⟨s.reg.writer, insert c s.reg.readers⟩).goto c (.lookup handle src), none)
    else none
  | some (.lookup handle src) => some (s.goto c (.runlock (s.loaded handle) src), none)
  | some (.runlock g src) =>
    let s := s.setReg ⟨s.reg.writer, s.reg.readers.erase c⟩
    match g with
    | none => some (s.goto c (.reply noParser), none)
    | some g => some (s.goto c (.muLock g src), none)
  | some (.muLock g src) =>
    (s.instances.cell g).bind fun i =>
      if i.mu = none then
        some ((s.setInstance g fun i => { i with mu := some c }).goto c (.parse g src), none)
      else none
  | some (.parse g src) =>
    (s.instances.cell g).map fun i => (s.goto c (.parsed g src i.parse), none)
  | some (.parsed g src p) =>
    let (out, p) := host.safeParse p src
    some ((s.setInstance g fun i => { i with parse := p }).goto c (.muUnlock g (host.answer out)), none)
  | some (.muUnlock g r) =>
    some ((s.setInstance g fun i => { i with mu := none }).goto c (.reply r), none)
  | some (.reply r) => some (s.goto c (.returned r), some r)

/-- The states that are reached with a history of calls and replies: a new call is made, or a call that
is under way goes on. -/
inductive Reaches : State ι σ (Reply P D) → List (Event ι Call (Reply P D)) → Prop
  | init : Reaches (.init ι σ (Reply P D)) []
  | invoke {s h} (c : ι) (op : Call) : Reaches s h → s.calls c = none →
      Reaches (s.goto c (start op)) (h ++ [.call c op])
  | step {s s' h} (c : ι) (r : Option (Reply P D)) : Reaches s h → advance host s c = some (s', r) →
      Reaches s' (h ++ (r.map (Event.ret c)).toList)

/-- The state and the history a schedule leads to: a call is made, or goes on. -/
def follow : List (ι × Option Call) → State ι σ (Reply P D) × List (Event ι Call (Reply P D)) →
    Option (State ι σ (Reply P D) × List (Event ι Call (Reply P D)))
  | [], sh => some sh
  | (c, some op) :: l, (s, h) =>
    match s.calls c with
    | some _ => none
    | none => follow l (s.goto c (start op), h ++ [.call c op])
  | (c, none) :: l, (s, h) =>
    (advance host s c).bind fun (s', r) => follow l (s', h ++ (r.map (Event.ret c)).toList)

theorem Reaches.follow {host : Host σ P V D} {l : List (ι × Option Call)}
    {s s' : State ι σ (Reply P D)} {h h' : List (Event ι Call (Reply P D))} (hs : Reaches host s h)
    (hl : follow host l (s, h) = some (s', h')) : Reaches host s' h' := by
  induction l generalizing s h with
  | nil =>
    obtain ⟨rfl, rfl⟩ := Prod.mk.inj (Option.some.inj hl)
    exact hs
  | cons a l ih =>
    obtain ⟨c, _ | op⟩ := a
    · obtain ⟨⟨s₁, r⟩, ha, hl⟩ := Option.bind_eq_some_iff.1 hl
      exact ih (hs.step c r ha) hl
    · cases hc : s.calls c with
      | none => exact ih (hs.invoke c op hc) (by simpa [Clib.follow, hc] using hl)
      | some pc => simp [Clib.follow, hc] at hl

theorem Reaches.of_follow {host : Host σ P V D} {l : List (ι × Option Call)} {β : Type*}
    {f : State ι σ (Reply P D) × List (Event ι Call (Reply P D)) → β} {b : β}
    (hl : (Clib.follow host l (.init ι σ (Reply P D), [])).map f = some b) :
    ∃ s h, Reaches host s h ∧ f (s, h) = b := by
  obtain ⟨⟨s, h⟩, hs, rfl⟩ := Option.map_eq_some_iff.1 hl
  exact ⟨s, h, Reaches.init.follow hs, rfl⟩

end Advance

/-- A host whose parsers count the parses they have done. -/
def counting : Host ℕ Unit (String × ℕ) (String × ℕ) where
  members s := if s = "{}" then some 0 else none
  safeNew _ := .ok 0
  safeParse p src := (.ok (src, p), p + 1)
  acceptDoc := id

/-! ### What the registry is for -/

/-- The parsers by their handles, with the last handle that was given. -/
structure Table (σ : Type*) where
  nextID : ℤ
  live : ℤ → Option σ

def Table.empty (σ : Type*) : Table σ := ⟨0, fun _ => none⟩

def Table.set {σ : Type*} (t : Table σ) (handle : ℤ) (p : Option σ) : Table σ :=
  { t with live := Function.update t.live handle p }

/-- The calls one at a time: a load gives the next handle to a new parser, a parse is one of the parser
under its handle, and a free takes it out. -/
def apply {σ P V D : Type*} (host : Host σ P V D) (t : Table σ) : Call → Reply P D × Table σ
  | .load optsJSON =>
    match host.build optsJSON with
    | .error r => (r, t)
    | .ok p =>
      let id := int64 (t.nextID + 1)
      (.handle id, { t.set id (some p) with nextID := id })
  | .parse handle src =>
    match t.live handle with
    | none => (noParser, t)
    | some p =>
      let (out, p) := host.safeParse p src
      (host.answer out, t.set handle (some p))
  | .free handle => (.freed, t.set handle none)

end TabnasExpr.Clib

import TabnasExpr.Render.Recursive
import TabnasExpr.Render.Spelling

/-!
# The render, on characters

`Spelled.exprRender` is the render as it runs: where a held object ends it tests the characters of the
members' texts, and what it writes is characters.  In every state of a run the texts that are held are
those of members, and numbers stand apart in them (`cleans_exprStep`), so it does what the render on lexemes
does (`exprRender_eq`).
-/

namespace TabnasExpr.Render

universe u

variable {ν : Type u}

namespace Spelled

/-- Why a render fails, a `src` as it is written. -/
inductive Failure where
  | protocolOrder (message : String)
  | unrepresentable (path : List PathPart) (src : List Char)
  | noCase

def Failure.ofText (h : Host ν) : Render.Failure ν → Failure
  | .protocolOrder message => .protocolOrder message
  | .unrepresentable path src => .unrepresentable path (h.spell src)
  | .noCase => .noCase

def exprRefuse (s : State ν) (src : List Char) : Failure :=
  match exprPathText s with
  | some path => .unrepresentable path src
  | none => .noCase

/-- The operator an object describes. -/
def Described.head : Described → Option Source
  | op o => some o
  | _ => Option.none

variable [Zero ν] [DecidableEq ν]

/-- A held object ends. -/
def exprObjectEnd (h : Host ν) (parts : List (Text ν)) (s : State ν) :
    Except Failure (State ν × List (Text ν)) :=
  match exprSrcOf h (parts.map h.spell) with
  | .foreign src =>
    if exprLeadsList s then .error (exprRefuse s src)
    else (exprHeld s (.atom (mapText parts) none)).mapError (.ofText h)
  | described => (exprHeld s (.atom (mapText parts) described.head)).mapError (.ofText h)

/-- One event; no other looks at a text. -/
def exprStep (h : Host ν) (s : State ν) (event : Event ν) : Except Failure (State ν × List (Text ν)) :=
  match s, event with
  | .mapHoldKey parts :: s, .objectEnd => exprObjectEnd h parts s
  | s, event => (Render.exprStep s event).mapError (.ofText h)

def scan (h : Host ν) : State ν → List (Event ν) → Except Failure (State ν × Text ν)
  | s, [] => .ok (s, [])
  | s, event :: events =>
    (exprStep h s event).bind fun (s, out) =>
      (scan h s events).map fun (s, text) => (s, out.flatten ++ text)

/-- The render: a tree's events in, the characters of the expression document out. -/
def exprRender (h : Host ν) (events : List (Event ν)) : Except Failure (List Char) :=
  (scan h [] events).bind fun (s, text) =>
    ((exprFinish s).mapError (.ofText h)).map fun out => h.spell (text ++ out.flatten)

end Spelled

open Spelled (IsMember)

/-! ## Numbers stand apart in what is held -/

/-- Numbers stand apart in both texts of an item. -/
structure Item.Apart (i : Item ν) : Prop where
  text : Render.Apart i.text
  list : Render.Apart i.list

section Items

variable {i x : Item ν} {is : List (Item ν)} {t : Text ν}

theorem Item.apart_atom (ht : Render.Apart t) (head : Option Source) :
    (Item.atom t head).Apart := ⟨ht, ht⟩

theorem apart_exprScalarText (v : Scalar ν) : Apart (exprScalarText v) := by
  cases v with
  | num n =>
    cases n with
    | finite negative n =>
      cases negative with
      | false => exact .singleton _
      | true => exact (apart_cons rfl).2 (.singleton _)
    | infinity | negativeInfinity | nan => exact .singleton _
  | null | bool b | str s => exact .singleton _

theorem apart_exprScalarItem (v : Scalar ν) : (exprScalarItem v).Apart :=
  Item.apart_atom (apart_exprScalarText v) _

theorem apart_exprLead (hi : i.Apart) : (exprLead is i).Apart := by
  unfold exprLead
  split
  · split
    · exact hi
    · exact apart_exprScalarItem _
  · exact hi

theorem apart_joinText {ts : List (Text ν)} (h : ∀ t ∈ ts, Apart t) : Apart (joinText [.comma] ts) := by
  induction ts with
  | nil => exact List.IsChain.nil
  | cons t ts ih =>
    cases ts with
    | nil => exact h t List.mem_cons_self
    | cons u ts =>
      rw [joinText_cons_cons, List.append_assoc, List.singleton_append]
      exact (apart_append_cons rfl).2
        ⟨h t List.mem_cons_self, ih fun v hv => h v (List.mem_cons_of_mem _ hv)⟩

/-- A text between two lexemes that are no numbers. -/
theorem apart_between {a b : Lexeme ν} (ha : a.isNum = false) (hb : b.isNum = false) (ht : Apart t) :
    Apart (a :: (t ++ [b])) :=
  (apart_cons ha).2 ((apart_append_cons hb).2 ⟨ht, List.IsChain.nil⟩)

theorem apart_exprList (h : ∀ i ∈ is, i.Apart) : Apart (exprList is) := by
  refine apart_between rfl rfl (apart_joinText fun t ht => ?_)
  obtain ⟨i, hi, rfl⟩ := List.mem_map.1 ht
  exact (h i hi).text

theorem apart_exprLeft (hi : i.Apart) (level : Class) : Apart (exprLeft i level) := by
  unfold exprLeft
  split
  · exact hi.text
  · exact hi.text
  · split
    · exact hi.text
    · exact hi.list

theorem apart_exprRight (hi : i.Apart) (level : Class) : Apart (exprRight i level) := by
  unfold exprRight
  split
  · exact hi.text
  · split
    · exact hi.text
    · exact hi.list
  · exact hi.list

theorem apart_exprTerm (hi : i.Apart) : Apart (exprTerm i) := by
  unfold exprTerm
  split
  · exact hi.text
  · exact hi.list

theorem apart_exprArray (h : ∀ i ∈ is, i.Apart) : (exprArray is).Apart := by
  have hlist := apart_exprList h
  unfold exprArray
  simp only
  split
  · split
    · exact ⟨apart_between (t := []) rfl rfl List.IsChain.nil, hlist⟩
    · exact Item.apart_atom hlist _
  · rename_i i x
    have hx : x.Apart := h x (by simp)
    split
    · exact ⟨apart_between rfl rfl hx.text, hlist⟩
    · exact ⟨(apart_cons rfl).2 (apart_exprTerm hx), hlist⟩
    · exact ⟨(apart_cons rfl).2 (apart_exprTerm hx), hlist⟩
    · exact Item.apart_atom hlist _
  · rename_i i a b
    unfold exprInfix
    split
    · exact Item.apart_atom hlist _
    · exact Item.apart_atom hlist _
    · exact ⟨(apart_append_cons rfl).2 ⟨apart_exprLeft (h a (by simp)) _,
        apart_exprRight (h b (by simp)) _⟩,
        hlist⟩
  · exact Item.apart_atom hlist _

theorem Spelled.IsMember.apart {part : Text ν} (hp : IsMember part) : Apart part := by
  obtain ⟨k, t, rfl, ht⟩ := hp
  exact (apart_cons rfl).2 ((apart_cons rfl).2 ht)

theorem apart_mapText {parts : List (Text ν)} (h : ∀ p ∈ parts, IsMember p) : Apart (mapText parts) :=
  apart_between rfl rfl (apart_joinText fun p hp => (h p hp).apart)

end Items

/-! ## What is held in a run -/

/-- Numbers stand apart in what a marker holds. -/
def Marker.Clean : Marker ν → Prop
  | listHold items => ∀ i ∈ items, i.Apart
  | mapHoldKey parts => ∀ p ∈ parts, IsMember p
  | mapHoldValue parts _ => ∀ p ∈ parts, IsMember p
  | _ => True

def Clean (s : State ν) : Prop := ∀ m ∈ s, m.Clean

/-- A step that is taken leaves a clean state. -/
def Cleans (tr : Transition ν) : Prop := ∀ s out, tr = .ok (s, out) → Clean s

section Clean

variable {s : State ν} {m : Marker ν} {i : Item ν} {out : List (Text ν)}

theorem Clean.cons (hm : m.Clean) (hs : Clean s) : Clean (m :: s) := List.forall_mem_cons.2 ⟨hm, hs⟩

theorem Clean.head (hs : Clean (m :: s)) : m.Clean := hs m List.mem_cons_self

theorem Clean.tail (hs : Clean s) : Clean s.tail := fun m hm => hs m (List.mem_of_mem_tail hm)

theorem Clean.mark (hm : m.Clean) (hs : Clean s) : Clean (exprMark m s) := hs.tail.cons hm

theorem cleans_ok (hs : Clean s) : Cleans (.ok (s, out)) := by
  rintro s' out' heq
  cases heq
  exact hs

theorem cleans_error (failure : Failure ν) : Cleans (.error failure) := by
  rintro s' out' heq
  cases heq

theorem cleans_exprPushOrDone {inner : Option (Marker ν)} (hs : Clean s)
    (hm : ∀ m ∈ inner, m.Clean) : Cleans (exprPushOrDone s inner out) := by
  unfold exprPushOrDone
  split
  · split
    · exact cleans_ok (hs.cons trivial)
    · exact cleans_ok hs
  · exact cleans_ok (hs.cons (hm _ rfl))

theorem cleans_exprStreamValue {inner : Option (Marker ν)} (hs : Clean s) (text : Text ν)
    (hm : ∀ m ∈ inner, m.Clean) : Cleans (exprStreamValue s text inner) := by
  unfold exprStreamValue
  split
  · exact cleans_exprPushOrDone hs hm
  · exact cleans_exprPushOrDone (hs.mark trivial) hm
  · split
    · exact cleans_exprPushOrDone (hs.mark trivial) hm
    · exact cleans_error _
  · exact cleans_exprPushOrDone (hs.mark trivial) hm
  · exact cleans_error _

/-- A completed value adds an item to what is held. -/
theorem cleans_exprHoldValue (hs : Clean s) (hi : i.Apart) : Cleans (exprHoldValue s i) := by
  unfold exprHoldValue
  split
  · rename_i items s
    refine cleans_ok (hs.mark fun j hj => ?_)
    rcases List.mem_append.1 hj with hj | hj
    · exact hs.head j hj
    · rw [List.mem_singleton.1 hj]
      exact apart_exprLead hi
  · rename_i parts k s
    refine cleans_ok (hs.mark fun p hp => ?_)
    rcases List.mem_append.1 hp with hp | hp
    · exact hs.head p hp
    · rw [List.mem_singleton.1 hp]
      exact ⟨k, i.text, rfl, hi.text⟩
  · exact cleans_error _

theorem cleans_exprFirstHeld (hs : Clean s) (hi : i.Apart) : Cleans (exprFirstHeld s i) := by
  unfold exprFirstHeld
  split
  · exact cleans_ok (hs.mark trivial)
  · refine cleans_ok (hs.mark fun j hj => ?_)
    rw [List.mem_singleton.1 hj]
    exact apart_exprLead hi

theorem cleans_exprClosed (hs : Clean s) (text : Text ν) : Cleans (exprClosed s text) := by
  unfold exprClosed
  split
  · exact cleans_ok (hs.cons trivial)
  · exact cleans_ok hs

theorem cleans_exprHeld (hs : Clean s) (hi : i.Apart) : Cleans (exprHeld s i) := by
  unfold exprHeld
  split
  · exact cleans_exprHoldValue hs hi
  · exact cleans_exprHoldValue hs hi
  · exact cleans_exprHoldValue hs hi
  · exact cleans_exprFirstHeld hs hi
  · exact cleans_exprClosed hs _

theorem cleans_exprValue (hs : Clean s) (event : Event ν) : Cleans (exprValue s event) := by
  unfold exprValue
  split
  · exact cleans_exprHoldValue hs (apart_exprScalarItem _)
  · exact cleans_ok (hs.cons (by simp [Marker.Clean]))
  · exact cleans_ok (hs.cons trivial)
  · exact cleans_exprStreamValue hs _ (by simp)
  · exact cleans_exprStreamValue hs _ (by simp [Marker.Clean])
  · exact cleans_exprStreamValue hs _ (by simp [Marker.Clean])
  · exact cleans_error _

theorem clean_exprDecide (hs : Clean s) (mode : Mode) (event : Event ν) :
    Clean (exprDecide s mode event).1 := by
  unfold exprDecide
  split
  · split <;> exact hs.mark (by simp [Marker.Clean])
  · exact hs.mark trivial
  · exact hs.mark trivial
  · exact hs.mark (by simp [Marker.Clean])

theorem cleans_exprFirst (hs : Clean s) (mode : Mode) (event : Event ν) :
    Cleans (exprFirst s mode event) := by
  have hdecide := clean_exprDecide hs mode event
  unfold exprFirst
  simp only
  split
  · rename_i hvalue
    exact cleans_ok (cleans_exprValue hdecide event _ _ hvalue)
  · rename_i hvalue
    exact cleans_ok (cleans_exprValue hdecide event _ _ hvalue)
  · exact cleans_error _
  · exact cleans_error _

theorem cleans_exprClose (hm : m.Clean) (hs : Clean s) : Cleans (exprClose s m) := by
  unfold exprClose
  split
  · exact cleans_exprClosed hs.tail _
  · exact cleans_exprHeld hs.tail (Item.apart_atom (apart_between (t := []) rfl rfl List.IsChain.nil) _)
  · exact cleans_exprClosed hs.tail _
  · exact cleans_exprHeld hs.tail (apart_exprArray hm)
  · exact cleans_error _

theorem cleans_exprKey (hs : Clean s) (name : String) : Cleans (exprKey s name) := by
  unfold exprKey
  split
  · exact cleans_ok (hs.mark trivial)
  · exact cleans_ok (hs.mark trivial)
  · exact cleans_ok (hs.mark hs.head)
  · exact cleans_error _

theorem cleans_exprArrayEnd (hs : Clean s) : Cleans (exprArrayEnd s) := by
  unfold exprArrayEnd
  split
  · exact cleans_exprClose hs.head hs
  · exact cleans_exprClose hs.head hs
  · exact cleans_exprClose hs.head hs
  · exact cleans_error _

theorem cleans_exprDue (hs : Clean s) (event : Event ν) : Cleans (exprDue s event) := by
  unfold exprDue
  split
  · exact cleans_exprValue hs event
  · exact cleans_exprFirst hs _ event
  · exact cleans_exprValue hs event
  · exact cleans_exprValue hs event
  · exact cleans_exprValue hs event
  · exact cleans_exprValue hs event
  · exact cleans_error _

variable [Zero ν] [DecidableEq ν]

theorem cleans_exprObjectEnd (hs : Clean s) : Cleans (exprObjectEnd s) := by
  unfold exprObjectEnd
  split
  · exact cleans_exprClosed hs.tail _
  · exact cleans_exprClosed hs.tail _
  · rename_i parts s
    have hmap : Apart (mapText parts) := apart_mapText hs.head
    split
    · split
      · exact cleans_error _
      · exact cleans_exprHeld hs.tail (Item.apart_atom hmap _)
    · exact cleans_exprHeld hs.tail (Item.apart_atom hmap _)
  · exact cleans_error _

/-- A step from a clean state leaves one. -/
theorem cleans_exprStep (hs : Clean s) (event : Event ν) : Cleans (exprStep s event) := by
  unfold exprStep
  split
  · exact cleans_error _
  · exact cleans_exprKey hs _
  · exact cleans_exprObjectEnd hs
  · exact cleans_exprArrayEnd hs
  · exact cleans_exprDue hs event

end Clean

/-! ## The tests in a run -/

namespace Spelled

variable {h : Host ν} {s : State ν}

theorem ofText_exprRefuse (s : State ν) (src : Text ν) :
    Failure.ofText h (Render.exprRefuse s src) = exprRefuse s (h.spell src) := by
  unfold Render.exprRefuse exprRefuse
  cases exprPathText s <;> rfl

variable [Zero ν] [DecidableEq ν]

/-- A held object ends as its members say. -/
theorem exprObjectEnd_eq {parts : List (Text ν)} (hp : ∀ p ∈ parts, IsMember p) :
    exprObjectEnd h parts s =
      (Render.exprObjectEnd (.mapHoldKey parts :: s)).mapError (.ofText h) := by
  rw [exprObjectEnd, exprSrcOf_spell hp]
  simp only [Render.exprObjectEnd]
  cases Render.exprSrcOf parts with
  | none | op o => rfl
  | foreign src =>
    simp only [Described.ofText]
    split_ifs
    · rw [← ofText_exprRefuse]
      rfl
    · rfl

theorem exprStep_eq (hs : Clean s) (event : Event ν) :
    exprStep h s event = (Render.exprStep s event).mapError (.ofText h) := by
  unfold exprStep
  split
  · exact exprObjectEnd_eq hs.head
  · rfl

/-- A run on characters is the run on lexemes. -/
theorem scan_eq (hs : Clean s) (events : List (Event ν)) :
    scan h s events = (Render.scan s events).mapError (.ofText h) := by
  induction events generalizing s with
  | nil => rfl
  | cons event events ih =>
    rw [scan, exprStep_eq hs, Render.scan]
    cases hstep : Render.exprStep s event with
    | error failure => rfl
    | ok r =>
      obtain ⟨s', out⟩ := r
      have hs' : Clean s' := cleans_exprStep hs event s' out hstep
      show (scan h s' events).map _ = ((Render.scan s' events).map _).mapError _
      rw [ih hs']
      cases Render.scan s' events <;> rfl

/-- What the render writes and why it fails, on characters and on lexemes. -/
theorem exprRender_eq (events : List (Event ν)) :
    exprRender h events = ((Render.exprRender events).map h.spell).mapError (.ofText h) := by
  have hclean : Clean ([] : State ν) := by
    intro m hm
    cases hm
  rw [exprRender, scan_eq hclean, Render.exprRender]
  cases Render.scan [] events with
  | error failure => rfl
  | ok r =>
    obtain ⟨s, text⟩ := r
    show ((exprFinish s).mapError _).map _ = (((exprFinish s).map _).map _).mapError _
    cases exprFinish s <;> rfl

end Spelled

end TabnasExpr.Render

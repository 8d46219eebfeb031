import Hfdl.Circular
import Hfdl.Transition
import Mathlib.Data.List.Perm.Basic

/-! The fan-out handler's database leg. A record is written to the ring first and offered to
the sink's queue second; attaching replays the ring and publishes the queue; cancellation and
closing retire it. The sink loop hands what it holds to the sink in batches. -/
namespace Hfdl.Logging
open Transition

structure LogRow where
  time : Int
  level : Int
  source : String
  msg : String
  attrs : String
deriving DecidableEq, Repr

structure Record extends LogRow where
  seq : Nat
deriving DecidableEq, Repr

structure Ring where
  records : Circular Record
  seq : Nat

def defaultRingCap : Nat := 2048

def newRing (cap : Int) : Ring where
  records :=
    if positive : 0 < cap then Circular.empty ⟨⟨0, 0, "", "", ""⟩, 0⟩ cap.toNat (by omega)
    else Circular.empty ⟨⟨0, 0, "", "", ""⟩, 0⟩ defaultRingCap (by decide)
  seq := 0

theorem holds_newRing (cap : Int) : (newRing cap).records.Holds [] := by
  unfold newRing
  split
  · case isTrue positive => exact Circular.holds_empty _ _ (by omega)
  · exact Circular.holds_empty _ _ (by decide)

namespace Ring

/-- The record that a write of the row stores. -/
def next (r : Ring) (row : LogRow) : Record := ⟨row, r.seq + 1⟩

def write (r : Ring) (row : LogRow) : Ring where
  records := r.records.push (r.next row)
  seq := r.seq + 1

def collect (r : Ring) (after : Nat) : List Record :=
  r.records.items.filter fun entry => after < entry.seq

def all (r : Ring) : List Record := r.collect 0

end Ring

def dbBatchSize : Nat := 256
def dbQueueCap : Nat := 4096

/-- Where a sink loop is, with the rows it has taken and not handed on. -/
inductive Phase where
  | replaying (rest : List Record)
  | live (batch : List Record)
  | draining (batch : List Record)
  | done
deriving DecidableEq, Repr

namespace Phase

def holds : Phase → List Record
  | replaying rest => rest
  | live batch | draining batch => batch
  | done => []

def Open : Phase → Prop
  | replaying _ | live _ => True
  | draining _ | done => False

end Phase

/-- A sink loop with its own queue, stop channel and attach context. -/
structure Loop where
  phase : Phase
  queue : List Record
  stopped : Bool
  cancelled : Bool
deriving DecidableEq, Repr

inductive LoopEvent where
  | replay | receive | tick | stop | expire | drain
deriving DecidableEq, Repr

namespace Loop

def holds (l : Loop) : List Record := l.phase.holds ++ l.queue

def stop (l : Loop) : Loop := { l with stopped := true }

def cancel (l : Loop) : Loop := { l with cancelled := true }

theorem holds_stop (l : Loop) : l.stop.holds = l.holds := rfl

theorem holds_cancel (l : Loop) : l.cancel.holds = l.holds := rfl

def collectRow (batch : List Record) (entry : Record) : List Record × List Record :=
  if dbBatchSize ≤ (batch ++ [entry]).length then ([], batch ++ [entry]) else (batch ++ [entry], [])

def next (l : Loop) (e : LoopEvent) : Option (Loop × List Record) :=
  match e, l.phase, l.queue with
  | .replay, .replaying [], _ => some ({ l with phase := .live [] }, [])
  | .replay, .replaying (entry :: rest), _ =>
    some ({ l with phase := .replaying ((entry :: rest).drop dbBatchSize) }, (entry :: rest).take dbBatchSize)
  | .receive, .live batch, entry :: rest =>
    some ({ l with phase := .live (collectRow batch entry).1, queue := rest }, (collectRow batch entry).2)
  | .tick, .live batch, _ => some ({ l with phase := .live [] }, batch)
  | .stop, .live batch, _ => if l.stopped then some ({ l with phase := .draining batch }, []) else none
  | .expire, .live batch, _ => if l.cancelled then some ({ l with phase := .draining batch }, []) else none
  | .drain, .draining batch, entry :: rest =>
    some ({ l with phase := .draining (collectRow batch entry).1, queue := rest }, (collectRow batch entry).2)
  | .drain, .draining batch, [] => some ({ l with phase := .done }, batch)
  | _, _, _ => none

theorem collectRow_append (batch : List Record) (entry : Record) :
    (collectRow batch entry).2 ++ (collectRow batch entry).1 = batch ++ [entry] := by
  unfold collectRow
  split <;> simp

variable {l l' : Loop}

/-- A step hands on the oldest rows the loop holds, and no others. -/
theorem next_holds (stepped : l.next e = some (l', batch)) : l.holds = batch ++ l'.holds := by
  obtain ⟨phase, queue, stopped, cancelled⟩ := l
  simp only [next] at stepped
  split at stepped <;> try split at stepped
  all_goals cases stepped
  case h_2 => rw [holds, holds, Phase.holds, Phase.holds, ← List.append_assoc, List.take_append_drop]
  case h_3 | h_7 =>
    rw [holds, holds, Phase.holds, Phase.holds, ← List.append_assoc, collectRow_append,
      List.append_assoc, List.singleton_append]
  all_goals simp_all [holds, Phase.holds]

theorem next_done (stepped : l.next e = some (l', batch)) (done : l'.phase = .done) : l'.queue = [] := by
  obtain ⟨phase, queue, stopped, cancelled⟩ := l
  simp only [next] at stepped
  split at stepped <;> try split at stepped
  all_goals cases stepped
  all_goals simp_all

theorem next_stopped (stepped : l.next e = some (l', batch)) : l'.stopped = l.stopped := by
  simp only [next] at stepped
  split at stepped <;> try split at stepped
  all_goals cases stepped
  all_goals rfl

theorem next_open (stepped : l.next e = some (l', batch)) (reads : l.phase.Open) :
    l'.phase.Open ∨ l.stopped ∨ e = .expire := by
  simp only [next] at stepped
  split at stepped <;> try split at stepped
  all_goals cases stepped
  all_goals simp_all [Phase.Open]

end Loop

/-- What the first attach found: the ring, and how many records had been logged. -/
structure Attachment where
  ring : List Record
  before : Nat
deriving DecidableEq, Repr

/-- The shared core. Loops are numbered in the order of their attaches, and the queue and the
stop channel are named by their loop. The last four fields record the history: the records
logged, the rows handed to the sink, the rows counted as dropped, and the first attach. -/
structure Core where
  ring : Ring
  drops : Nat
  dbQueue : Option Nat
  dbStop : Option Nat
  dbSince : Nat
  dbClosed : Bool
  closed : Bool
  loops : List Loop
  handling : List Record
  logged : List Record
  handed : List Record
  counted : List Record
  attached : Option Attachment

inductive Event where
  | write (floor : Int) (row : LogRow)
  | send (k : Nat)
  | attach
  | cancel (i : Nat)
  | close
  | loop (i : Nat) (e : LoopEvent) (stored : Bool)
deriving DecidableEq, Repr

namespace Core

def new (cap : Int) : Core where
  ring := newRing cap
  drops := 0
  dbQueue := none
  dbStop := none
  dbSince := 0
  dbClosed := false
  closed := false
  loops := []
  handling := []
  logged := []
  handed := []
  counted := []
  attached := none

def count (c : Core) (rows : List Record) : Core :=
  { c with drops := c.drops + rows.length, counted := c.counted ++ rows }

/-- A batch goes to the sink; when the insert fails every row of it is counted. -/
def flush (c : Core) (batch : List Record) (stored : Bool) : Core :=
  let handed := { c with handed := c.handed ++ batch }
  if stored then handed else handed.count batch

def retireDBQueue (c : Core) : Core := { c with dbQueue := none, dbClosed := true }

/-- The part of `Handle` up to the ring write; a record below the level floor goes nowhere. -/
def write (c : Core) (floor : Int) (row : LogRow) : Core :=
  if row.level < floor then c
  else
    { c with
      ring := c.ring.write row
      handling := c.handling ++ [c.ring.next row]
      logged := c.logged ++ [c.ring.next row] }

/-- The part of `Handle` under the core's lock. -/
def send (c : Core) (entry : Record) : Core :=
  match c.dbQueue with
  | some i =>
    if c.dbSince < entry.seq then
      match c.loops[i]? with
      | none => c
      | some l =>
        if l.queue.length < dbQueueCap then
          { c with loops := c.loops.set i { l with queue := l.queue ++ [entry] } }
        else c.count [entry]
    else c
  | none => if c.dbClosed then c.count [entry] else c

def attachDB (c : Core) : Core :=
  if c.dbQueue.isSome ∨ c.closed then c
  else
    let replay := c.ring.all
    { c with
      dbSince := (replay.getLast?.map Record.seq).getD 0
      dbQueue := some c.loops.length
      dbStop := some c.loops.length
      loops := c.loops ++ [⟨.replaying replay, [], false, false⟩]
      attached := c.attached.or (some ⟨replay, c.logged.length⟩) }

def stopLoop (c : Core) : List Loop :=
  match c.dbStop with
  | some i => c.loops.modify i Loop.stop
  | none => c.loops

def close (c : Core) : Core :=
  { c with loops := c.stopLoop, dbQueue := none, dbStop := none, dbClosed := true, closed := true }

def next (c : Core) : Event → Option Core
  | .write floor row => some (c.write floor row)
  | .send k => c.handling[k]?.map fun entry => { c with handling := c.handling.eraseIdx k }.send entry
  | .attach => some c.attachDB
  | .cancel i => some { c with loops := c.loops.modify i Loop.cancel }
  | .close => some c.close
  | .loop i e stored => do
    let l ← c.loops[i]?
    let (l', batch) ← l.next e
    let c := if e = .expire then c.retireDBQueue else c
    some ({ c with loops := c.loops.set i l' }.flush batch stored)

/-- Every row a loop still has to hand on, and the records whose `Handle` has not offered them yet. -/
def underway (c : Core) : List Record := c.loops.flatMap Loop.holds ++ c.handling

section Loops
variable {α β : Type _}

theorem flatMap_set {f : α → List β} {xs : List α} (found : xs[i]? = some x) :
    ∃ front back, xs.flatMap f = front ++ f x ++ back ∧
      ∀ y, (xs.set i y).flatMap f = front ++ f y ++ back := by
  induction xs generalizing i with
  | nil => cases found
  | cons head rest ih =>
    cases i with
    | zero =>
      cases found
      exact ⟨[], rest.flatMap f, rfl, fun _ => rfl⟩
    | succ i =>
      obtain ⟨front, back, before, after⟩ := ih found
      refine ⟨f head ++ front, back, ?_, fun y => ?_⟩
      · rw [List.flatMap_cons, before]
        simp
      · rw [List.set_cons_succ, List.flatMap_cons, after]
        simp

theorem flatMap_modify {f : α → List β} {g : α → α} (blind : ∀ x, f (g x) = f x) (xs : List α) (i : Nat) :
    (xs.modify i g).flatMap f = xs.flatMap f := by
  induction xs generalizing i with
  | nil => simp
  | cons head rest ih =>
    cases i with
    | zero => simp [blind]
    | succ i => simp [ih]

end Loops

/-- Every row handed on, held by a loop, or still to be offered to the queue. -/
def stream (c : Core) : List Record :=
  c.handed ++ c.loops.flatMap Loop.holds ++ c.handling.filter fun entry => c.dbSince < entry.seq

/-- Rows move towards the sink, and those that fall out are counted once a sink was attached. -/
structure Moved (c c' : Core) (lost : List Record) : Prop where
  stream : c.stream.Perm (c'.stream ++ lost)
  ring : c'.ring = c.ring := by rfl
  logged : c'.logged = c.logged := by rfl
  attached : c'.attached = c.attached := by rfl
  since : c'.dbSince = c.dbSince := by rfl
  handling : c'.handling ⊆ c.handling
  counted : c.counted ⊆ c'.counted
  lost : ∀ entry ∈ lost, entry ∈ c'.counted ∨ c.dbQueue = none ∧ c.dbClosed = false

/-- What one event does to the rows. -/
inductive Effect (c : Core) : Event → Core → Prop where
  | moved (m : Moved c c' lost) : Effect c e c'
  | written (accepted : ¬ row.level < floor) : Effect c (.write floor row) (c.write floor row)
  | attached (idle : c.dbQueue = none) (running : c.closed = false) : Effect c .attach c.attachDB

variable {c c' : Core} {l l' : Loop} {entry : Record} {e : LoopEvent}

theorem moved_self (same : c'.stream = c.stream) (ring : c'.ring = c.ring) (logged : c'.logged = c.logged)
    (attached : c'.attached = c.attached) (since : c'.dbSince = c.dbSince)
    (handling : c'.handling = c.handling) (counted : c'.counted = c.counted) : Moved c c' [] where
  stream := by rw [same, List.append_nil]
  ring := ring
  logged := logged
  attached := attached
  since := since
  handling := by rw [handling]; exact List.Subset.refl _
  counted := by rw [counted]; exact List.Subset.refl _
  lost := by simp

theorem flatMap_stopLoop (c : Core) : c.stopLoop.flatMap Loop.holds = c.loops.flatMap Loop.holds := by
  unfold stopLoop
  split
  · exact flatMap_modify Loop.holds_stop _ _
  · rfl

theorem stream_handled (c : Core) (found : c.handling[k]? = some entry) :
    c.stream.Perm ({ c with handling := c.handling.eraseIdx k }.stream ++
      [entry].filter fun entry => c.dbSince < entry.seq) := by
  obtain ⟨bound, rfl⟩ := List.getElem?_eq_some_iff.mp found
  have taken := (List.getElem_cons_eraseIdx_perm bound).symm.filter fun entry => decide (c.dbSince < entry.seq)
  rw [← List.singleton_append, List.filter_append] at taken
  unfold stream
  rw [List.append_assoc _ (List.filter _ _)]
  exact (taken.trans List.perm_append_comm).append_left _

theorem stream_enqueued (c : Core) (found : c.loops[i]? = some l) (entry : Record) :
    ({ c with loops := c.loops.set i { l with queue := l.queue ++ [entry] } }.stream).Perm
      (c.stream ++ [entry]) := by
  obtain ⟨front, back, before, after⟩ := flatMap_set (f := Loop.holds) found
  unfold stream
  simp only [before, after, Loop.holds]
  rw [List.perm_iff_count]
  intro a
  simp only [List.count_append]
  omega

theorem moved_of_send (opened : ∀ i, c.dbQueue = some i → i < c.loops.length)
    (found : c.handling[k]? = some entry) :
    ∃ lost, Moved c ({ c with handling := c.handling.eraseIdx k }.send entry) lost := by
  have fewer : c.handling.eraseIdx k ⊆ c.handling := List.eraseIdx_subset
  have handled := c.stream_handled found
  -- outside the queue the record leaves the stream, if it was in it
  have uncounted (idle : c.dbQueue = none ∧ c.dbClosed = false ∨ ¬ c.dbSince < entry.seq) :
      Moved c { c with handling := c.handling.eraseIdx k }
        ([entry].filter fun entry => c.dbSince < entry.seq) := by
    refine { stream := handled, handling := fewer, counted := List.Subset.refl _, lost := ?_ }
    intro r lost
    obtain ⟨here, newer⟩ := List.mem_filter.mp lost
    cases List.mem_singleton.mp here
    exact Or.inr (idle.resolve_right fun older => older (of_decide_eq_true newer))
  have counted : Moved c (({ c with handling := c.handling.eraseIdx k } : Core).count [entry])
      ([entry].filter fun entry => c.dbSince < entry.seq) := by
    refine { stream := handled, handling := fewer, counted := List.subset_append_left .., lost := ?_ }
    intro r lost
    exact Or.inl (List.mem_append_right _ (List.mem_filter.mp lost).1)
  unfold send
  split
  · case h_1 i queue =>
    split
    · case isTrue newer =>
      split
      · case h_1 gone => exact absurd (opened i queue) (Nat.not_lt.mpr (List.getElem?_eq_none_iff.mp gone))
      · case h_2 l found =>
        split
        · have own : [entry].filter (fun entry => decide (c.dbSince < entry.seq)) = [entry] :=
            List.filter_eq_self.mpr (by simpa using newer)
          rw [own] at handled
          have joined := stream_enqueued { c with handling := c.handling.eraseIdx k } found entry
          exact ⟨[], {
            stream := by rw [List.append_nil]; exact handled.trans joined.symm
            handling := fewer
            counted := List.Subset.refl _
            lost := by simp }⟩
        · exact ⟨_, counted⟩
    · case isFalse older => exact ⟨_, uncounted (.inr older)⟩
  · case h_2 queue =>
    split
    · exact ⟨_, counted⟩
    · case isFalse running => exact ⟨_, uncounted (.inl ⟨queue, eq_false_of_ne_true running⟩)⟩

theorem moved_of_loop (found : c.loops[i]? = some l) (stepped : l.next e = some (l', batch)) (stored : Bool) :
    Moved c ({ c with loops := c.loops.set i l' }.flush batch stored) [] := by
  obtain ⟨front, back, before, after⟩ := flatMap_set (f := Loop.holds) found
  have handed : ({ c with loops := c.loops.set i l', handed := c.handed ++ batch }.stream).Perm c.stream := by
    unfold stream
    simp only [before, after, Loop.next_holds stepped]
    rw [List.perm_iff_count]
    intro a
    simp only [List.count_append]
    omega
  cases stored with
  | true => exact {
      stream := by rw [List.append_nil]; exact handed.symm
      handling := List.Subset.refl _
      counted := List.Subset.refl _
      lost := by simp }
  | false => exact {
      stream := by rw [List.append_nil]; exact handed.symm
      handling := List.Subset.refl _
      counted := List.subset_append_left ..
      lost := by simp }

theorem Moved.of_retired (m : Moved c.retireDBQueue c' []) : Moved c c' [] :=
  { m with stream := m.stream, lost := by simp }

theorem effect_of_next {e : Event} (opened : ∀ i, c.dbQueue = some i → i < c.loops.length)
    (stepped : c.next e = some c') : Effect c e c' := by
  cases e with
  | write floor row =>
    cases stepped
    by_cases low : row.level < floor
    · rw [write, if_pos low]
      exact .moved (moved_self rfl rfl rfl rfl rfl rfl rfl)
    · exact .written low
  | send k =>
    obtain ⟨entry, found, rfl⟩ := Option.map_eq_some_iff.mp stepped
    obtain ⟨lost, moved⟩ := moved_of_send opened found
    exact .moved moved
  | attach =>
    cases stepped
    by_cases busy : c.dbQueue.isSome ∨ c.closed
    · rw [attachDB, if_pos busy]
      exact .moved (moved_self rfl rfl rfl rfl rfl rfl rfl)
    · rw [not_or, Option.not_isSome_iff_eq_none, Bool.not_eq_true] at busy
      exact .attached busy.1 busy.2
  | cancel i =>
    cases stepped
    refine .moved (moved_self ?_ rfl rfl rfl rfl rfl rfl)
    show c.handed ++ (c.loops.modify i Loop.cancel).flatMap Loop.holds ++ _ = _
    rw [flatMap_modify Loop.holds_cancel]
    rfl
  | close =>
    cases stepped
    refine .moved (moved_self ?_ rfl rfl rfl rfl rfl rfl)
    show c.handed ++ c.stopLoop.flatMap Loop.holds ++ _ = _
    rw [flatMap_stopLoop]
    rfl
  | loop i e stored =>
    simp only [next, Option.bind_eq_bind, Option.bind_eq_some_iff] at stepped
    obtain ⟨l, found, ⟨l', batch⟩, stepped, done⟩ := stepped
    cases done
    split
    · exact .moved (Moved.of_retired (moved_of_loop (c := c.retireDBQueue) found stepped stored))
    · exact .moved (moved_of_loop found stepped stored)

/-- How the queue, the loops and the two closed flags hang together. -/
structure Linked (c : Core) : Prop where
  opened : ∀ i, c.dbQueue = some i → ∃ l, c.loops[i]? = some l ∧ l.phase.Open
  stopped : ∀ l ∈ c.loops, l.stopped → c.closed
  closed : c.closed → c.dbQueue = none
  done : ∀ l ∈ c.loops, l.phase = .done → l.queue = []
  retired : c.attached ≠ none → c.dbQueue = none → c.dbClosed
  fresh : c.attached = none → c.loops = [] ∧ c.handed = []

namespace Linked
variable {i : Nat}

theorem inside (k : Linked c) : ∀ i, c.dbQueue = some i → i < c.loops.length := by
  intro i queue
  obtain ⟨l, found, _⟩ := k.opened i queue
  exact (List.getElem?_eq_some_iff.mp found).1

theorem attached (k : Linked c) (found : c.loops[i]? = some l) : c.attached ≠ none := by
  intro never
  rw [(k.fresh never).1] at found
  cases found

theorem set (k : Linked c) (found : c.loops[i]? = some l) (opened : c.dbQueue = some i → l'.phase.Open)
    (stopped : l'.stopped = l.stopped) (done : l'.phase = .done → l'.queue = []) :
    Linked { c with loops := c.loops.set i l' } where
  opened j queue := by
    obtain ⟨other, at_j, reads⟩ := k.opened j queue
    by_cases same : i = j
    · subst same
      exact ⟨l', List.getElem?_set_self (k.inside i queue), opened queue⟩
    · exact ⟨other, (List.getElem?_set_ne same).trans at_j, reads⟩
  stopped other held was := by
    cases List.mem_or_eq_of_mem_set held with
    | inl old => exact k.stopped other old was
    | inr new =>
      subst new
      exact k.stopped l (List.mem_of_getElem? found) (stopped ▸ was)
  closed := k.closed
  done other held ended := by
    cases List.mem_or_eq_of_mem_set held with
    | inl old => exact k.done other old ended
    | inr new =>
      subst new
      exact done ended
  retired := k.retired
  fresh never := absurd never (k.attached found)

theorem flush (k : Linked c) (attached : c.attached ≠ none) (batch : List Record) (stored : Bool) :
    Linked (c.flush batch stored) := by
  cases stored <;> exact { k with fresh := fun never => absurd never attached }

theorem retire (k : Linked c) : Linked c.retireDBQueue :=
  { k with
    opened := by intro i queue; cases queue
    closed := fun _ => rfl
    retired := fun _ _ => rfl }

theorem count (k : Linked c) (rows : List Record) : Linked (c.count rows) := { k with }

theorem handled (k : Linked c) (rest : List Record) : Linked { c with handling := rest } := { k with }

theorem send (k : Linked c) (entry : Record) : Linked (c.send entry) := by
  unfold Core.send
  split
  · case h_1 i queue =>
    split
    · split
      · exact k
      · case h_2 l found =>
        split
        · obtain ⟨same, again, reads⟩ := k.opened i queue
          cases found.symm.trans again
          refine k.set found (fun _ => reads) rfl ?_
          intro ended
          rw [show l.phase = .done from ended] at reads
          cases reads
        · exact k.count _
    · exact k
  · split
    · exact k.count _
    · exact k

theorem cancel (k : Linked c) (i : Nat) : Linked { c with loops := c.loops.modify i Loop.cancel } := by
  rw [List.modify_eq_set_getElem?]
  cases found : c.loops[i]? with
  | none => exact k
  | some l =>
    have reads : c.dbQueue = some i → l.cancel.phase.Open := by
      intro queue
      obtain ⟨same, again, reads⟩ := k.opened i queue
      cases found.symm.trans again
      exact reads
    exact k.set found reads rfl (k.done l (List.mem_of_getElem? found))

theorem mem_stopLoop (held : l ∈ c.stopLoop) : ∃ old ∈ c.loops, l.phase = old.phase ∧ l.queue = old.queue := by
  unfold stopLoop at held
  split at held
  · case h_1 i stop =>
    rw [List.modify_eq_set_getElem?] at held
    cases found : c.loops[i]? with
    | none =>
      rw [found] at held
      exact ⟨l, held, rfl, rfl⟩
    | some old =>
      rw [found] at held
      cases List.mem_or_eq_of_mem_set held with
      | inl kept => exact ⟨l, kept, rfl, rfl⟩
      | inr new =>
        subst new
        exact ⟨old, List.mem_of_getElem? found, rfl, rfl⟩
  · exact ⟨l, held, rfl, rfl⟩

theorem close (k : Linked c) : Linked c.close where
  opened i queue := by cases queue
  stopped _ _ _ := rfl
  closed _ := rfl
  done l held ended := by
    obtain ⟨old, was, phase, queue⟩ := mem_stopLoop held
    rw [queue]
    exact k.done old was (phase ▸ ended)
  retired _ _ := rfl
  fresh never := by
    obtain ⟨loops, handed⟩ := k.fresh never
    refine ⟨?_, handed⟩
    show c.stopLoop = []
    unfold stopLoop
    rw [loops]
    split
    · exact List.modify_nil ..
    · rfl

theorem attach (k : Linked c) : Linked c.attachDB := by
  unfold attachDB
  split
  · exact k
  · case isFalse idle =>
    rw [not_or, Option.not_isSome_iff_eq_none, Bool.not_eq_true] at idle
    exact {
      opened := by
        intro i queue
        cases queue
        exact ⟨_, List.getElem?_concat_length .., trivial⟩
      stopped := by
        intro l held was
        cases List.mem_append.mp held with
        | inl old => exact k.stopped l old was
        | inr new =>
          cases List.mem_singleton.mp new
          cases was
      closed := by
        intro closed
        cases idle.2.symm.trans closed
      done := by
        intro l held ended
        cases List.mem_append.mp held with
        | inl old => exact k.done l old ended
        | inr new =>
          cases List.mem_singleton.mp new
          cases ended
      retired := by
        intro _ queue
        cases queue
      fresh := by
        intro never
        simp at never }

theorem next {e : Event} (k : Linked c) (stepped : c.next e = some c') : Linked c' := by
  cases e with
  | write floor row =>
    cases stepped
    unfold Core.write
    split
    · exact k
    · exact { k with }
  | send n =>
    obtain ⟨entry, found, rfl⟩ := Option.map_eq_some_iff.mp stepped
    exact (k.handled _).send entry
  | attach =>
    cases stepped
    exact k.attach
  | cancel i =>
    cases stepped
    exact k.cancel i
  | close =>
    cases stepped
    exact k.close
  | loop i e stored =>
    simp only [Core.next, Option.bind_eq_bind, Option.bind_eq_some_iff] at stepped
    obtain ⟨l, found, ⟨l', batch⟩, stepped, done⟩ := stepped
    cases done
    split
    · case isTrue expired =>
      have replaced := k.retire.set found (by intro queue; cases queue) (Loop.next_stopped stepped)
        (Loop.next_done stepped)
      exact replaced.flush (k.attached found) batch stored
    · case isFalse running =>
      refine (k.set found ?_ (Loop.next_stopped stepped) (Loop.next_done stepped)).flush
        (k.attached found) batch stored
      intro queue
      obtain ⟨same, again, reads⟩ := k.opened i queue
      cases found.symm.trans again
      rcases Loop.next_open stepped reads with still | told | expired
      · exact still
      · -- closing the stop channel retires the queue first
        rw [k.closed (k.stopped l (List.mem_of_getElem? found) told)] at queue
        cases queue
      · exact absurd expired running

end Linked

/-- The ring holds the last records logged, which are numbered from one on. -/
structure Numbered (c : Core) : Prop where
  ring : c.ring.records.Holds c.logged
  seq : c.ring.seq = c.logged.length
  logged : c.logged.map Record.seq = List.range' 1 c.logged.length
  handling : ∀ entry ∈ c.handling, entry.seq ≤ c.logged.length

namespace Numbered

theorem all_eq (n : Numbered c) : c.ring.all = c.logged.drop (c.logged.length - c.ring.records.buf.length) := by
  rw [Ring.all, Ring.collect, n.ring]
  apply List.filter_eq_self.mpr
  intro entry held
  have positive : entry.seq ∈ c.logged.map Record.seq := List.mem_map_of_mem (List.mem_of_mem_drop held)
  rw [n.logged, List.mem_range'_1] at positive
  exact decide_eq_true (by omega)

theorem horizon (n : Numbered c) : (c.ring.all.getLast?.map Record.seq).getD 0 = c.logged.length := by
  have inside := c.ring.records.inside
  rw [n.all_eq, ← List.getLast?_map, List.map_drop, n.logged, List.getLast?_drop, List.getLast?_range',
    List.length_range']
  split
  · simp only [Option.getD_none]
    omega
  · rw [if_neg (by omega), Option.getD_some]
    omega

theorem nodup (n : Numbered c) : (c.ring.all.map Record.seq).Nodup := by
  rw [n.all_eq, List.map_drop, n.logged]
  exact (List.nodup_range' 1).sublist (List.drop_sublist _ _)

theorem write (n : Numbered c) (row : LogRow) (accepted : ¬ row.level < floor) :
    Numbered (c.write floor row) := by
  have seq : (c.ring.next row).seq = c.logged.length + 1 := congrArg (· + 1) n.seq
  rw [Core.write, if_neg accepted]
  exact {
    ring := n.ring.push _
    seq := by
      rw [List.length_append, List.length_singleton]
      exact seq
    logged := by
      rw [List.map_append, n.logged, List.map_singleton, seq, List.length_append, List.length_singleton,
        List.range'_1_concat, Nat.add_comm 1]
    handling := by
      intro entry held
      rw [List.length_append, List.length_singleton]
      cases List.mem_append.mp held with
      | inl old => exact Nat.le_succ_of_le (n.handling entry old)
      | inr new =>
        cases List.mem_singleton.mp new
        exact Nat.le_of_eq seq }

theorem next {e : Event} (n : Numbered c) (effect : Effect c e c') : Numbered c' := by
  cases effect with
  | moved m => exact {
      ring := by rw [m.ring, m.logged]; exact n.ring
      seq := by rw [m.ring, m.logged]; exact n.seq
      logged := by rw [m.logged]; exact n.logged
      handling := by
        intro entry held
        rw [m.logged]
        exact n.handling entry (m.handling held) }
  | written accepted => exact n.write _ accepted
  | attached idle running =>
    unfold attachDB
    split
    · exact n
    · exact { n with }

end Numbered

/-- An attach comes before the sink is retired, or after the close. -/
def Unretired (c : Core) : Event → Prop
  | .attach => c.dbClosed → c.closed
  | _ => True

instance (c : Core) (e : Event) : Decidable (Unretired c e) := by
  unfold Unretired
  split <;> infer_instance

/-- Every record is in the stream at most once, and what the sink owes is in it or counted. -/
structure Once (c : Core) : Prop where
  nodup : (c.stream.map Record.seq).Nodup
  reached : ∀ entry ∈ c.stream, entry.seq ≤ c.logged.length
  since : c.dbSince = (c.attached.map Attachment.before).getD 0
  before : c.dbSince ≤ c.logged.length
  kept : ∀ a, c.attached = some a → ∀ entry, entry ∈ a.ring ∨ entry ∈ c.logged.drop a.before →
    entry ∈ c.stream ∨ entry ∈ c.counted

namespace Once

theorem moved (o : Once c) (k : Linked c) (m : Moved c c' lost) : Once c' where
  nodup := by
    have parts := (m.stream.map Record.seq).nodup_iff.mp o.nodup
    rw [List.map_append] at parts
    exact (List.nodup_append.mp parts).1
  reached entry held := by
    rw [m.logged]
    exact o.reached entry (m.stream.mem_iff.mpr (List.mem_append_left _ held))
  since := by rw [m.since, m.attached, o.since]
  before := by rw [m.since, m.logged]; exact o.before
  kept a attached entry owed := by
    rw [m.attached] at attached
    rw [m.logged] at owed
    cases o.kept a attached entry owed with
    | inr counted => exact Or.inr (m.counted counted)
    | inl held =>
      cases List.mem_append.mp (m.stream.mem_iff.mp held) with
      | inl still => exact Or.inl still
      | inr lost =>
        cases m.lost entry lost with
        | inl counted => exact Or.inr counted
        | inr idle =>
          have closed := k.retired (by rw [attached]; exact Option.some_ne_none a) idle.1
          rw [idle.2] at closed
          cases closed

theorem written (o : Once c) (n : Numbered c) (accepted : ¬ row.level < floor) : Once (c.write floor row) := by
  have seq : (c.ring.next row).seq = c.logged.length + 1 := congrArg (· + 1) n.seq
  have before := o.before
  have newer : c.dbSince < (c.ring.next row).seq := by omega
  have stream : (c.write floor row).stream = c.stream ++ [c.ring.next row] := by
    simp [Core.write, accepted, Core.stream, newer]
  have logged : (c.write floor row).logged = c.logged ++ [c.ring.next row] := by
    simp [Core.write, accepted]
  have since : (c.write floor row).dbSince = c.dbSince := by simp [Core.write, accepted]
  have first : (c.write floor row).attached = c.attached := by simp [Core.write, accepted]
  have counted : (c.write floor row).counted = c.counted := by simp [Core.write, accepted]
  constructor
  · rw [stream, List.map_append, List.map_singleton, List.nodup_append]
    refine ⟨o.nodup, List.pairwise_singleton .., ?_⟩
    intro old held new same
    obtain ⟨entry, inside, rfl⟩ := List.mem_map.mp held
    have reached := o.reached entry inside
    cases List.mem_singleton.mp same
    omega
  · intro entry held
    rw [logged, List.length_append, List.length_singleton]
    rw [stream] at held
    cases List.mem_append.mp held with
    | inl old => exact Nat.le_succ_of_le (o.reached entry old)
    | inr new =>
      cases List.mem_singleton.mp new
      exact Nat.le_of_eq seq
  · rw [since, first, o.since]
  · rw [since, logged, List.length_append]
    omega
  · intro a attached entry owed
    rw [first] at attached
    have start : a.before = c.dbSince := by rw [o.since, attached]; rfl
    rw [logged, List.drop_append_of_le_length (by omega), List.mem_append, ← or_assoc] at owed
    rw [stream, counted]
    cases owed with
    | inl old =>
      cases o.kept a attached entry old with
      | inl held => exact Or.inl (List.mem_append_left _ held)
      | inr counted => exact Or.inr counted
    | inr new => exact Or.inl (List.mem_append_right _ new)

/-- The first attach moves the ring into the stream; every record still being handled is in it. -/
theorem attached (k : Linked c) (n : Numbered c) (idle : c.dbQueue = none)
    (running : c.closed = false) (unretired : c.dbClosed → c.closed) : Once c.attachDB := by
  have first : c.attached = none := by
    by_contra attached
    have closed := unretired (k.retired attached idle)
    rw [running] at closed
    cases closed
  obtain ⟨loops, handed⟩ := k.fresh first
  have older : c.handling.filter (fun entry => decide (c.logged.length < entry.seq)) = [] := by
    apply List.filter_eq_nil_iff.mpr
    intro entry held newer
    have reached := n.handling entry held
    have newer := of_decide_eq_true newer
    omega
  have stream : c.attachDB.stream = c.ring.all := by
    simp [Core.stream, attachDB, idle, running, loops, handed, n.horizon, older, Loop.holds, Phase.holds]
  have since : c.attachDB.dbSince = c.logged.length := by
    simp [attachDB, idle, running, n.horizon]
  have logged : c.attachDB.logged = c.logged := by simp [attachDB, idle, running]
  have attached : c.attachDB.attached = some ⟨c.ring.all, c.logged.length⟩ := by
    simp [attachDB, idle, running, first]
  constructor
  · rw [stream]
    exact n.nodup
  · intro entry held
    rw [stream, n.all_eq] at held
    have numbered : entry.seq ∈ c.logged.map Record.seq := List.mem_map_of_mem (List.mem_of_mem_drop held)
    rw [n.logged, List.mem_range'_1] at numbered
    rw [logged]
    omega
  · rw [since, attached]
    rfl
  · exact Nat.le_of_eq (since.trans (congrArg List.length logged.symm))
  · intro a found entry owed
    cases attached.symm.trans found
    rw [logged, List.drop_length] at owed
    rw [stream]
    exact Or.inl (owed.resolve_right (List.not_mem_nil))

theorem next {e : Event} (o : Once c) (k : Linked c) (n : Numbered c) (unretired : Unretired c e)
    (effect : Effect c e c') : Once c' := by
  cases effect with
  | moved m => exact o.moved k m
  | written accepted => exact o.written n accepted
  | attached idle running => exact Once.attached k n idle running unretired

end Once

theorem drops_next {e : Event} (exact_count : c.drops = c.counted.length) (stepped : c.next e = some c') :
    c'.drops = c'.counted.length := by
  have counted (c : Core) (rows : List Record) (same : c.drops = c.counted.length) :
      (c.count rows).drops = (c.count rows).counted.length := by
    simp [count, same]
  cases e with
  | write floor row =>
    cases stepped
    unfold Core.write
    split <;> exact exact_count
  | send k =>
    obtain ⟨entry, found, rfl⟩ := Option.map_eq_some_iff.mp stepped
    unfold send
    repeat' split
    all_goals first | exact exact_count | exact counted _ _ exact_count
  | attach =>
    cases stepped
    unfold attachDB
    split <;> exact exact_count
  | cancel i =>
    cases stepped
    exact exact_count
  | close =>
    cases stepped
    exact exact_count
  | loop i e stored =>
    simp only [next, Option.bind_eq_bind, Option.bind_eq_some_iff] at stepped
    obtain ⟨l, found, ⟨l', batch⟩, stepped, done⟩ := stepped
    cases done
    unfold flush
    split <;> split
    all_goals first | exact exact_count | exact counted _ _ exact_count

/-- What holds in every state of a run without an attach to a retired sink. -/
structure Inv (c : Core) : Prop where
  linked : Linked c
  numbered : Numbered c
  once : Once c
  drops : c.drops = c.counted.length

theorem inv_next {e : Event} (inv : Inv c) (unretired : Unretired c e) (stepped : c.next e = some c') : Inv c' := by
  have effect := effect_of_next inv.linked.inside stepped
  exact {
    linked := inv.linked.next stepped
    numbered := inv.numbered.next effect
    once := inv.once.next inv.linked inv.numbered unretired effect
    drops := drops_next inv.drops stepped }

theorem inv_new (cap : Int) : Inv (new cap) where
  linked := {
    opened := by intro i queue; cases queue
    stopped := by intro l held; cases held
    closed := by intro closed; cases closed
    done := by intro l held; cases held
    retired := by intro attached; exact absurd rfl attached
    fresh := fun _ => ⟨rfl, rfl⟩ }
  numbered := {
    ring := holds_newRing cap
    seq := rfl
    logged := rfl
    handling := by intro entry held; cases held }
  once := {
    nodup := List.nodup_nil
    reached := by intro entry held; cases held
    since := rfl
    before := Nat.le_refl 0
    kept := by intro a attached; cases attached }
  drops := rfl

/-- In every run without an attach to a retired sink no record is handed to the sink twice, the
drop count is the number of rows counted, and every record that was in the ring at the first
attach or logged after it is handed over, counted or under way; once no `Handle` is in progress
and the sink loops have ended nothing is under way. -/
theorem rows_once (cap : Int) (es : List Event) (ran : run next (new cap) es = some c)
    (meets : Meets next Unretired (new cap) es) :
    (c.handed.map Record.seq).Nodup ∧ c.drops = c.counted.length ∧
      (∀ a, c.attached = some a → ∀ entry, entry ∈ a.ring ∨ entry ∈ c.logged.drop a.before →
        entry ∈ c.handed ∨ entry ∈ c.counted ∨ entry ∈ c.underway) ∧
      (c.handling = [] → (∀ l ∈ c.loops, l.phase = .done) → c.underway = []) := by
  have inv : Inv c := invariant_meeting inv_next (inv_new cap) ran meets
  refine ⟨?_, inv.drops, ?_, ?_⟩
  · have nodup := inv.once.nodup
    rw [stream, List.append_assoc, List.map_append] at nodup
    exact (List.nodup_append.mp nodup).1
  · intro a attached entry owed
    cases inv.once.kept a attached entry owed with
    | inr counted => exact Or.inr (Or.inl counted)
    | inl held =>
      simp only [stream, List.mem_append, List.mem_filter] at held
      rcases held with (handed | held) | ⟨handling, _⟩
      · exact Or.inl handed
      · exact Or.inr (Or.inr (List.mem_append_left _ held))
      · exact Or.inr (Or.inr (List.mem_append_right _ handling))
  · intro handled ended
    have empty : c.loops.flatMap Loop.holds = [] := by
      apply List.flatMap_eq_nil_iff.mpr
      intro l held
      rw [Loop.holds, ended l held, inv.linked.done l held (ended l held)]
      rfl
    rw [underway, empty, handled]
    rfl

def info (msg : String) : LogRow := ⟨0, 0, "", msg, ""⟩

/-- Two records reach the sink by replay, the second while its `Handle` is still in progress;
the third is queued, and lost with its batch; the fourth finds the sink closed. -/
theorem rows_once_closed : ∃ c, run next (new 2) [.write 0 (info "boot"), .send 0, .write 0 (info "plan"),
      .attach, .send 0, .write 0 (info "fetch"), .send 0, .loop 0 .replay true, .loop 0 .replay true,
      .loop 0 .receive true, .close, .write 0 (info "exit"), .send 0, .loop 0 .stop true,
      .loop 0 .drain false] = some c ∧
    c.handed.map Record.seq = [1, 2, 3] ∧ c.counted.map Record.seq = [4, 3] ∧ c.underway = [] ∧
    (c.handed.map Record.seq).Nodup := by
  have ran : ∃ c, run next (new 2) [.write 0 (info "boot"), .send 0, .write 0 (info "plan"),
      .attach, .send 0, .write 0 (info "fetch"), .send 0, .loop 0 .replay true, .loop 0 .replay true,
      .loop 0 .receive true, .close, .write 0 (info "exit"), .send 0, .loop 0 .stop true,
      .loop 0 .drain false] = some c ∧ c.handed.map Record.seq = [1, 2, 3] ∧
      c.counted.map Record.seq = [4, 3] ∧ c.handling = [] ∧ ∀ l ∈ c.loops, l.phase = .done :=
    ⟨_, rfl, by decide, by decide, by decide, by decide⟩
  obtain ⟨c, ran, handed, counted, handled, ended⟩ := ran
  obtain ⟨nodup, _, _, drained⟩ := rows_once 2 _ ran (by decide)
  exact ⟨c, ran, handed, counted, drained handled ended, nodup⟩

/-- After a cancellation retired the sink, a second attach replays the ring again, and the
record in it reaches the sink twice. -/
theorem reattach_repeats : ∃ c, run next (new 2) [.write 0 (info "boot"), .send 0, .attach,
      .loop 0 .replay true, .loop 0 .replay true, .cancel 0, .loop 0 .expire true, .loop 0 .drain true,
      .attach, .loop 1 .replay true] = some c ∧
    c.handed = [⟨info "boot", 1⟩, ⟨info "boot", 1⟩] ∧ ¬ (c.handed.map Record.seq).Nodup :=
  ⟨_, rfl, by decide, by decide⟩

end Core
end Hfdl.Logging

import Mathlib.Data.Int.Notation
import Mathlib.Logic.Function.Basic
import ServerFramework.Fiber.Scheduler

/-! # Events of file descriptors

The event operations of `IOManager` on the `n` descriptors inside `fd_contexts_`. Each
operation is performed under the mutex of its descriptor and is one function below. Whether
an admissible `epoll_ctl` call succeeds is an argument; a failed assertion and the use of a
null pointer end the program and are faults.
-/

namespace ServerFramework

/-- `IOManager::Event`. -/
inductive Event where
  | none
  | read
  | write
  deriving DecidableEq, Repr

/-- A combination of the bits `READ` and `WRITE`. -/
structure Events where
  read : Bool
  write : Bool
  deriving DecidableEq, Repr

namespace Events

def empty : Events := ⟨false, false⟩

/-- `events & event`. -/
def has (events : Events) : Event → Bool
  | .none => false
  | .read => events.read
  | .write => events.write

/-- `events | event`. -/
def set (events : Events) : Event → Events
  | .none => events
  | .read => { events with read := true }
  | .write => { events with write := true }

/-- `events & ~event`. -/
def clear (events : Events) : Event → Events
  | .none => events
  | .read => { events with read := false }
  | .write => { events with write := false }

/-- `a & b`. -/
def inter (a b : Events) : Events := ⟨a.read && b.read, a.write && b.write⟩

/-- `a & ~b`. -/
def diff (a b : Events) : Events := ⟨a.read && !b.read, a.write && !b.write⟩

def card (events : Events) : ℕ := events.read.toNat + events.write.toNat

/-- The events set, in the order in which they are tested. -/
def toList (events : Events) : List Event :=
  (if events.read then [.read] else []) ++ if events.write then [.write] else []

end Events

/-- What ends the program. -/
inductive Fault where
  | assertion
  | nullPointer
  deriving DecidableEq, Repr

/-- The mask of an `epoll_event`. -/
structure EpollMask where
  edgeTriggered : Bool
  events : Events
  deriving DecidableEq, Repr

inductive EpollCtlOp where
  | add
  | mod
  | del
  deriving DecidableEq, Repr

/-- `epoll_ctl` on the interest in one descriptor: an error or the new interest. It fails on a
descriptor that is already there or is not there, and, unless `ok`, for any other reason. -/
def epollCtl (interest : Option EpollMask) (op : EpollCtlOp) (mask : EpollMask) (ok : Bool) :
    Option (Option EpollMask) :=
  match op, interest, ok with
  | .add, none, true => some (some mask)
  | .mod, some _, true => some (some mask)
  | .del, some _, true => some none
  | _, _, _ => none

/-- `FdContext::EventContext`, null pointers and empty functions being `none`. -/
structure EventContext where
  scheduler : Option SchedulerId
  fiber : Option FiberId
  cb : Option Callback
  deriving DecidableEq, Repr

/-- `ResetEventContext`. -/
def EventContext.reset : EventContext := ⟨none, none, none⟩

/-- What is passed to `Schedule`, which drops a null fiber. -/
def EventContext.task (c : EventContext) : Option Task :=
  match c.cb with
  | some cb => some (.cb cb)
  | none => c.fiber.map .fiber

structure FdContext where
  readCtx : EventContext
  writeCtx : EventContext
  events : Events
  deriving DecidableEq, Repr

namespace FdContext

def new : FdContext := ⟨.reset, .reset, .empty⟩

def getEventContext (ctx : FdContext) : Event → Except Fault EventContext
  | .read => .ok ctx.readCtx
  | .write => .ok ctx.writeCtx
  | .none => .error .assertion

/-- Assign to the event context that `GetEventContext` refers to. -/
def setEventContext (ctx : FdContext) (event : Event) (eventCtx : EventContext) : FdContext :=
  match event with
  | .read => { ctx with readCtx := eventCtx }
  | .write => { ctx with writeCtx := eventCtx }
  | .none => ctx

/-- `TriggerEvent`, with the scheduler that is called and what it is given. -/
def triggerEvent (ctx : FdContext) (event : Event) :
    Except Fault (FdContext × SchedulerId × Option Task) :=
  if ctx.events.has event then
    let ctx := { ctx with events := ctx.events.clear event }
    match ctx.getEventContext event with
    | .error fault => .error fault
    | .ok eventCtx =>
      match eventCtx.scheduler with
      | none => .error .nullPointer
      | some scheduler => .ok (ctx.setEventContext event .reset, scheduler, eventCtx.task)
  else .error .assertion

end FdContext

/-- A task handed to a scheduler on behalf of an event. -/
structure Scheduled (n : ℕ) where
  fd : Fin n
  event : Event
  scheduler : SchedulerId
  task : Task
  deriving DecidableEq, Repr

/-- The thread that calls `AddEvent`: its scheduler, its fiber, and whether the state of that
fiber is `RUNNING`. -/
structure Caller where
  scheduler : Option SchedulerId
  fiber : FiberId
  running : Bool
  deriving DecidableEq, Repr

/-- What `epoll_wait` reports of a descriptor. -/
structure Reported where
  epollIn : Bool
  epollOut : Bool
  errOrHup : Bool
  deriving DecidableEq, Repr

/-- The part of `IOManager` that the event operations work on, the kernel's interest set, and
the calls of `Schedule` made so far. -/
structure EventTable (n : ℕ) where
  fdContexts : Fin n → FdContext
  interest : Fin n → Option EpollMask
  pendingEventCount : ℤ
  scheduled : List (Scheduled n)

namespace EventTable

variable {n : ℕ}

def new : EventTable n where
  fdContexts := fun _ => .new
  interest := fun _ => none
  pendingEventCount := 0
  scheduled := []

def events (s : EventTable n) (fd : Fin n) : Events := (s.fdContexts fd).events

/-- The outcome of a successful `epoll_ctl`. -/
def setInterest (s : EventTable n) (fd : Fin n) (interest : Option EpollMask) : EventTable n :=
  { s with interest := Function.update s.interest fd interest }

def setContext (s : EventTable n) (fd : Fin n) (ctx : FdContext) : EventTable n :=
  { s with fdContexts := Function.update s.fdContexts fd ctx }

/-- `AddEvent`. A return value other than 0 means failure. -/
def addEvent (s : EventTable n) (fd : Fin n) (event : Event) (cb : Option Callback)
    (caller : Caller) (ok : Bool) : Except Fault (ℤ × EventTable n) :=
  let ctx := s.fdContexts fd
  if ctx.events.has event then .error .assertion
  else
    let op : EpollCtlOp := if ctx.events = .empty then .add else .mod
    match epollCtl (s.interest fd) op ⟨true, ctx.events.set event⟩ ok with
    | none => .ok (-1, s)
    | some interest =>
      let ctx := { ctx with events := ctx.events.set event }
      match ctx.getEventContext event with
      | .error fault => .error fault
      | .ok eventCtx =>
        if eventCtx ≠ .reset then .error .assertion
        else
          let eventCtx : EventContext :=
            match cb with
            | some cb => ⟨caller.scheduler, none, some cb⟩
            | none => ⟨caller.scheduler, some caller.fiber, none⟩
          if cb.isNone && !caller.running then .error .assertion
          else
            let s := (s.setInterest fd interest).setContext fd (ctx.setEventContext event eventCtx)
            .ok (0, { s with pendingEventCount := s.pendingEventCount + 1 })

def delEvent (s : EventTable n) (fd : Fin n) (event : Event) (ok : Bool) :
    Except Fault (Bool × EventTable n) :=
  let ctx := s.fdContexts fd
  if !ctx.events.has event then .ok (false, s)
  else
    let newEvents := ctx.events.clear event
    let op : EpollCtlOp := if newEvents = .empty then .del else .mod
    match epollCtl (s.interest fd) op ⟨true, newEvents⟩ ok with
    | none => .ok (false, s)
    | some interest =>
      let ctx := { ctx with events := newEvents }
      match ctx.getEventContext event with
      | .error fault => .error fault
      | .ok _ =>
        let s := (s.setInterest fd interest).setContext fd (ctx.setEventContext event .reset)
        .ok (true, { s with pendingEventCount := s.pendingEventCount - 1 })

/-- `TriggerEvent` followed by the decrement of `pending_event_count_`. -/
def trigger (fd : Fin n) (s : EventTable n) (event : Event) : Except Fault (EventTable n) :=
  match (s.fdContexts fd).triggerEvent event with
  | .error fault => .error fault
  | .ok (ctx, scheduler, task) =>
    let s := s.setContext fd ctx
    .ok { s with
      pendingEventCount := s.pendingEventCount - 1
      scheduled := s.scheduled ++ (task.map (⟨fd, event, scheduler, ·⟩)).toList }

/-- The same if the event is registered. -/
def triggerRegistered (s : EventTable n) (fd : Fin n) (event : Event) :
    Except Fault (EventTable n) :=
  if (s.events fd).has event then s.trigger fd event else .ok s

def cancelEvent (s : EventTable n) (fd : Fin n) (event : Event) (ok : Bool) :
    Except Fault (Bool × EventTable n) :=
  let ctx := s.fdContexts fd
  if !ctx.events.has event then .ok (false, s)
  else
    let newEvents := ctx.events.clear event
    let op : EpollCtlOp := if newEvents = .empty then .del else .mod
    match epollCtl (s.interest fd) op ⟨true, newEvents⟩ ok with
    | none => .ok (false, s)
    | some interest => ((s.setInterest fd interest).trigger fd event).map fun s => (true, s)

def cancelAll (s : EventTable n) (fd : Fin n) (ok : Bool) : Except Fault (Bool × EventTable n) :=
  if s.events fd = .empty then .ok (false, s)
  else
    match epollCtl (s.interest fd) .del ⟨false, .empty⟩ ok with
    | none => .ok (false, s)
    | some interest =>
      match (s.setInterest fd interest).triggerRegistered fd .read with
      | .error fault => .error fault
      | .ok s =>
        match s.triggerRegistered fd .write with
        | .error fault => .error fault
        | .ok s => if s.events fd = .empty then .ok (true, s) else .error .assertion

/-- `real_events`: what is reported, where an error or hang-up stands for all registered
events. -/
def realEvents (s : EventTable n) (fd : Fin n) (reported : Reported) : Events :=
  if reported.errOrHup then
    ⟨reported.epollIn || (s.events fd).read, reported.epollOut || (s.events fd).write⟩
  else ⟨reported.epollIn, reported.epollOut⟩

/-- What `Idle` does with one reported descriptor. -/
def dispatch (s : EventTable n) (fd : Fin n) (reported : Reported) (ok : Bool) :
    Except Fault (EventTable n) :=
  let realEvents := s.realEvents fd reported
  if (s.events fd).inter realEvents = .empty then .ok s
  else
    let leftEvents := (s.events fd).diff realEvents
    let op : EpollCtlOp := if leftEvents = .empty then .del else .mod
    match epollCtl (s.interest fd) op ⟨true, leftEvents⟩ ok with
    | none => .ok s
    | some interest => realEvents.toList.foldlM (trigger fd) (s.setInterest fd interest)

end EventTable

end ServerFramework

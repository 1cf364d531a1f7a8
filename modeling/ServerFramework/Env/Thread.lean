import Mathlib.Data.Int.Notation
import Mathlib.Data.Nat.Notation
import Mathlib.Tactic.Common
import ServerFramework.Lib.Transition

/-! # Threads

The constructor of a `Thread` waits on a semaphore until the new thread has read and written what it
needs of the object; the thread uses the object afterwards only in `SetName`. So the object can be
gone before the thread has ended, unless it goes because the constructor's wait is interrupted.
-/

namespace ServerFramework

/-- Where a Thread object is. -/
inductive ObjectPhase where
  /-- Before `pthread_create`. -/
  | creating
  /-- In `semaphore_.wait()`. -/
  | waiting
  | constructed
  | gone
  deriving DecidableEq, Repr

/-- Where the new thread is in `Run`. -/
inductive LaunchPhase where
  | absent
  /-- Before `t_thread_name` is set. -/
  | naming
  /-- Before `id_` is set. -/
  | identifying
  /-- Before `pthread_setname_np`. -/
  | titling
  /-- Before `cb_` is taken. -/
  | swapping
  /-- Before `semaphore_.notify()`. -/
  | notifying
  /-- In the callback. -/
  | calling
  | ended
  deriving DecidableEq, Repr

/-- A Thread object and its thread, with the calls of `Join` that are under way. -/
structure Thread where
  object : ObjectPhase
  run : LaunchPhase
  id : ℤ
  /-- `thread_` is not zero. -/
  thread : Bool
  cb : Option ℕ
  name : List Char
  semaphore : ℕ
  /-- What the kernel calls the thread. -/
  tid : ℤ
  title : List Char
  /-- `t_thread` is the object. -/
  this : Bool
  /-- `t_thread_name`. -/
  threadName : List Char
  /-- The local `cb` of `Run`. -/
  taken : Option ℕ
  calls : List ℕ
  /-- Calls of `Join` in `pthread_join`. -/
  joining : ℕ
  /-- Calls of `Join` before `thread_ = 0`. -/
  clearing : ℕ
  /-- How many times the thread has been joined or detached. -/
  released : ℕ
  /-- Accesses to an object that is gone. -/
  faults : ℕ
  deriving DecidableEq

/-- The steps of the constructor, of the new thread, and of those who use the object. -/
inductive ThreadOp where
  /-- `pthread_create`, with what the kernel calls the thread if it makes one. -/
  | create (tid : Option ℤ)
  /-- `sem_wait` returns, perhaps because of a signal. -/
  | wait (interrupted : Bool)
  /-- `Run` goes on up to its callback. -/
  | run
  /-- The callback calls `SetName`. -/
  | setName (name : List Char)
  /-- The callback returns. -/
  | finish
  | enterJoin
  | returnJoin
  | clearThread
  | destroy
  deriving DecidableEq, Repr

namespace Thread

/-- A Thread before its constructor has called anything. -/
def new (cb : ℕ) (name : List Char) : Thread where
  object := .creating
  run := .absent
  id := -1
  thread := false
  cb := some cb
  name := if name = [] then ['U', 'N', 'K', 'N', 'O', 'W'] else name
  semaphore := 0
  tid := -1
  title := []
  this := false
  threadName := ['U', 'N', 'K', 'N', 'O', 'W']
  taken := none
  calls := []
  joining := 0
  clearing := 0
  released := 0
  faults := 0

/-- An access to the object. -/
def touch (s : Thread) : Thread :=
  if s.object = .gone then { s with faults := s.faults + 1 } else s

/-- The next access of `Run` to the object; behind the last one the callback is called. -/
def runStep (s : Thread) : Option Thread :=
  match s.run with
  | .naming => some { s.touch with this := true, threadName := s.name, run := .identifying }
  | .identifying => some { s.touch with id := s.tid, run := .titling }
  | .titling => some { s.touch with title := s.name.take 15, run := .swapping }
  | .swapping => some { s.touch with cb := none, taken := s.cb, run := .notifying }
  | .notifying =>
    some { s.touch with
      semaphore := s.semaphore + 1
      calls := s.calls ++ s.taken.toList
      run := .calling }
  | .absent | .calling | .ended => none

/-- `Thread::SetName` in the thread. -/
def setName (s : Thread) (name : List Char) : Thread :=
  if name = [] then s
  else
    let s := if s.this then { s.touch with name := name } else s
    { s with threadName := name }

def step (s : Thread) : ThreadOp → Option Thread
  | .create tid =>
    if s.object = .creating then
      match tid with
      | some tid => some { s with object := .waiting, run := .naming, thread := true, tid := tid }
      -- the constructor throws
      | none => some { s with object := .gone }
    else none
  | .wait interrupted =>
    if s.object = .waiting then
      if interrupted then some { s with object := .gone }
      else if 0 < s.semaphore then
        some { s with object := .constructed, semaphore := s.semaphore - 1 }
      else none
    else none
  | .run => s.runStep
  | .setName name => if s.run = .calling then some (s.setName name) else none
  | .finish => if s.run = .calling then some { s with run := .ended } else none
  | .enterJoin =>
    if s.object = .constructed then
      some (if s.thread then { s with joining := s.joining + 1 } else s)
    else none
  | .returnJoin =>
    if 0 < s.joining ∧ s.run = .ended then
      some { s with
        joining := s.joining - 1
        clearing := s.clearing + 1
        released := s.released + 1 }
    else none
  | .clearThread =>
    if 0 < s.clearing then some { s.touch with thread := false, clearing := s.clearing - 1 }
    else none
  | .destroy =>
    if s.object = .constructed then
      some { s with
        object := .gone
        released := if s.thread then s.released + 1 else s.released }
    else none

/-- No signal interrupts the wait of the constructor, nobody joins or destroys a Thread while
another call of `Join` is under way, and a thread does not name itself when its object is gone. -/
def Sound (s : Thread) : ThreadOp → Prop
  | .wait interrupted => interrupted = false
  | .setName name => name = [] ∨ s.object ≠ .gone
  | .enterJoin | .destroy => s.joining = 0 ∧ s.clearing = 0
  | _ => True

instance (s : Thread) : ∀ op, Decidable (s.Sound op)
  | .wait _ => inferInstanceAs (Decidable (_ = _))
  | .setName _ => inferInstanceAs (Decidable (_ ∨ _))
  | .enterJoin | .destroy => inferInstanceAs (Decidable (_ ∧ _))
  | .create _ | .run | .finish | .returnJoin | .clearThread => isTrue trivial

/-- The thread has told the constructor. -/
def Launched (s : Thread) : Prop := s.run = .calling ∨ s.run = .ended

instance (s : Thread) : Decidable s.Launched := inferInstanceAs (Decidable (_ ∨ _))

/-- What the constructor promises, and what the thread and its callers find. -/
structure Orderly (f : ℕ) (given : List Char) (s : Thread) : Prop where
  safe : s.faults = 0
  /-- The constructor waits for somebody who moves. -/
  progress : s.object = .waiting → (s.step (.wait false)).isSome ∨ (s.step .run).isSome
  /-- After the constructor the thread is in its callback, under its name, and the object knows
  what the thread is. -/
  ready : s.object = .constructed → s.Launched ∧ s.id = s.tid ∧ s.threadName = s.name ∧
    s.title = (new f given).name.take 15
  calls : s.calls = if s.Launched then [f] else []
  /-- The thread has ended when `Join` is over. -/
  joined : s.object = .constructed → s.thread = false → s.run = .ended
  /-- The thread is joined or detached once, at the latest with the object. -/
  released : s.released ≤ 1
  releasedLast : s.object = .gone → s.run ≠ .absent → s.released = 1

/-- The data of the object and of the thread, by where the thread is. -/
structure Filled (f : ℕ) (given : List Char) (s : Thread) : Prop where
  name : ¬ s.Launched → s.name = (new f given).name
  threadName : s.object ≠ .gone → s.run ∉ [.absent, .naming] → s.threadName = s.name
  this : s.run ∉ [.absent, .naming] → s.this = true
  id : s.run ∉ [.absent, .naming, .identifying] → s.id = s.tid
  title : s.run = .swapping ∨ s.run = .notifying ∨ s.Launched →
    s.title = (new f given).name.take 15
  cb : s.run ≠ .notifying → ¬ s.Launched → s.cb = some f
  taken : s.run = .notifying → s.taken = some f
  calls : s.calls = if s.Launched then [f] else []

/-- Where the object is, the semaphore and the calls of `Join`. -/
structure Placed (s : Thread) : Prop where
  creating : s.object = .creating → s.run = .absent
  absent : s.run = .absent → s.object = .creating ∨ s.object = .gone
  waiting : s.object = .waiting → s.thread = true
  constructed : s.object = .constructed → s.Launched
  gone : s.object = .gone → s.run = .absent ∨ s.Launched
  semaphore : s.semaphore = if s.object = .waiting ∧ s.Launched then 1 else 0
  users : s.object ≠ .constructed → s.joining = 0 ∧ s.clearing = 0
  joins : s.joining + s.clearing ≤ 1
  ended : 0 < s.clearing → s.run = .ended
  joined : s.object = .constructed → s.thread = false → s.run = .ended
  thread : s.object = .constructed → s.thread = false → s.joining = 0 ∧ s.clearing = 0
  released : s.released = if s.object = .constructed ∧ (s.thread = false ∨ 0 < s.clearing) ∨
    s.object = .gone ∧ s.run ≠ .absent then 1 else 0

structure Inv (f : ℕ) (given : List Char) (s : Thread) : Prop where
  safe : s.faults = 0
  filled : s.Filled f given
  placed : s.Placed

section Steps

variable {f : ℕ} {given : List Char} {s s' : Thread}

theorem new_inv (f : ℕ) (given : List Char) : (new f given).Inv f given := by
  refine ⟨rfl, ?_, ?_⟩
  · constructor <;> simp [new, Launched]
  · constructor <;> simp [new, Launched]

@[simp] theorem touch_of_alive (h : s.object ≠ .gone) : s.touch = s := if_neg h

/-- The object is there as long as `Run` needs it. -/
theorem Placed.alive (h : s.Placed) (hrun : s.run ≠ .absent) (hl : ¬ s.Launched) :
    s.object = .waiting := by
  cases ho : s.object with
  | creating => exact absurd (h.creating ho) hrun
  | waiting => rfl
  | constructed => exact absurd (h.constructed ho) hl
  | gone => exact absurd (h.gone ho) (by simp [hrun, hl])

/-- Each access of `Run` fills what the later ones need. -/
theorem Filled.runStep (h : s.Filled f given) (hl : ¬ s.Launched) (ho : s.object = .waiting)
    (hs : s.runStep = some s') : s'.Filled f given := by
  have halive : s.object ≠ .gone := by simp [ho]
  have hname := h.name hl
  have hcalls : s.calls = [] := by rw [h.calls, if_neg hl]
  rw [Thread.runStep, touch_of_alive halive] at hs
  split at hs
  case h_1 hrun =>
    cases hs
    exact {
      name := fun _ => hname
      threadName := fun _ _ => rfl
      this := fun _ => rfl
      id := by simp
      title := by simp [Launched]
      cb := fun _ _ => h.cb (by simp [hrun]) hl
      taken := by simp
      calls := by simp [hcalls, Launched] }
  case h_2 hrun =>
    cases hs
    exact {
      name := fun _ => hname
      threadName := fun _ _ => h.threadName halive (by simp [hrun])
      this := fun _ => h.this (by simp [hrun])
      id := fun _ => rfl
      title := by simp [Launched]
      cb := fun _ _ => h.cb (by simp [hrun]) hl
      taken := by simp
      calls := by simp [hcalls, Launched] }
  case h_3 hrun =>
    cases hs
    exact {
      name := fun _ => hname
      threadName := fun _ _ => h.threadName halive (by simp [hrun])
      this := fun _ => h.this (by simp [hrun])
      id := fun _ => h.id (by simp [hrun])
      title := fun _ => by rw [hname]
      cb := fun _ _ => h.cb (by simp [hrun]) hl
      taken := by simp
      calls := by simp [hcalls, Launched] }
  case h_4 hrun =>
    cases hs
    exact {
      name := fun _ => hname
      threadName := fun _ _ => h.threadName halive (by simp [hrun])
      this := fun _ => h.this (by simp [hrun])
      id := fun _ => h.id (by simp [hrun])
      title := fun _ => h.title (.inl hrun)
      cb := fun hne _ => absurd rfl hne
      taken := fun _ => h.cb (by simp [hrun]) hl
      calls := by simp [hcalls, Launched] }
  case h_5 hrun =>
    cases hs
    exact {
      name := fun hl' => absurd (.inl rfl) hl'
      threadName := fun _ _ => h.threadName halive (by simp [hrun])
      this := fun _ => h.this (by simp [hrun])
      id := fun _ => h.id (by simp [hrun])
      title := fun _ => h.title (.inr (.inl hrun))
      cb := fun _ hl' => absurd (.inl rfl) hl'
      taken := by simp
      calls := by simp [hcalls, h.taken hrun, Launched] }
  all_goals cases hs

/-- Nobody uses an object whose constructor has not returned. -/
theorem Placed.of_waiting (ho : s.object = .waiting) (hrun : s.run ≠ .absent)
    (hthread : s.thread = true) (hsemaphore : s.semaphore = if s.Launched then 1 else 0)
    (hjoining : s.joining = 0) (hclearing : s.clearing = 0) (hreleased : s.released = 0) :
    s.Placed where
  creating := by simp [ho]
  absent := fun ha => absurd ha hrun
  waiting := fun _ => hthread
  constructed := by simp [ho]
  gone := by simp [ho]
  semaphore := by simpa [ho] using hsemaphore
  users := fun _ => ⟨hjoining, hclearing⟩
  joins := by omega
  ended := by omega
  joined := by simp [ho]
  thread := by simp [ho]
  released := by simpa [ho] using hreleased

theorem Placed.of_constructed (ho : s.object = .constructed) (hl : s.Launched)
    (hsemaphore : s.semaphore = 0) (hjoins : s.joining + s.clearing ≤ 1)
    (hended : s.thread = false ∨ 0 < s.clearing → s.run = .ended)
    (hthread : s.thread = false → s.joining = 0 ∧ s.clearing = 0)
    (hreleased : s.released = if s.thread = false ∨ 0 < s.clearing then 1 else 0) :
    s.Placed where
  creating := by simp [ho]
  absent := by
    intro ha
    rcases hl with hl | hl <;> simp [ha] at hl
  waiting := by simp [ho]
  constructed := fun _ => hl
  gone := by simp [ho]
  semaphore := by simpa [ho] using hsemaphore
  users := fun hne => absurd ho hne
  joins := hjoins
  ended := fun hc => hended (.inr hc)
  joined := fun _ ht => hended (.inl ht)
  thread := fun _ => hthread
  released := by simpa [ho] using hreleased

theorem Placed.of_gone (ho : s.object = .gone) (hrun : s.run = .absent ∨ s.Launched)
    (hsemaphore : s.semaphore = 0) (hjoining : s.joining = 0) (hclearing : s.clearing = 0)
    (hreleased : s.released = if s.run = .absent then 0 else 1) : s.Placed where
  creating := by simp [ho]
  absent := fun _ => .inr ho
  waiting := by simp [ho]
  constructed := by simp [ho]
  gone := fun _ => hrun
  semaphore := by simpa [ho] using hsemaphore
  users := fun _ => ⟨hjoining, hclearing⟩
  joins := by omega
  ended := by omega
  joined := by simp [ho]
  thread := by simp [ho]
  released := by simpa [ho] using hreleased

theorem Placed.released_eq_zero (h : s.Placed) (ho : s.object = .creating ∨ s.object = .waiting) :
    s.released = 0 := by
  rcases ho with ho | ho <;> simp [h.released, ho]

/-- The thread goes on to an access before the last one. -/
theorem Placed.proceed (h : s.Placed) (ho : s.object = .waiting) (hl : ¬ s.Launched)
    {run : LaunchPhase} (hrun : run ∉ [.absent, .calling, .ended]) (this : Bool) (id : ℤ)
    (threadName title : List Char) (cb taken : Option ℕ) :
    Placed { s with run, this, id, threadName, title, cb, taken } := by
  obtain ⟨hjoining, hclearing⟩ := h.users (by simp [ho])
  obtain ⟨habsent, hcalling, hended⟩ : run ≠ .absent ∧ run ≠ .calling ∧ run ≠ .ended := by
    simpa using hrun
  have hsemaphore : s.semaphore = 0 := by simp [h.semaphore, hl]
  refine .of_waiting ho habsent (h.waiting ho) ?_ hjoining hclearing
    (h.released_eq_zero (.inr ho))
  simp [hsemaphore, Launched, hcalling, hended]

theorem Placed.launch (h : s.Placed) (ho : s.object = .waiting) (hl : ¬ s.Launched)
    (calls : List ℕ) :
    Placed { s with semaphore := s.semaphore + 1, calls, run := .calling } := by
  obtain ⟨hjoining, hclearing⟩ := h.users (by simp [ho])
  have hsemaphore : s.semaphore = 0 := by simp [h.semaphore, hl]
  refine .of_waiting ho (by simp) (h.waiting ho) ?_ hjoining hclearing
    (h.released_eq_zero (.inr ho))
  simp [hsemaphore, Launched]

theorem Placed.runStep (h : s.Placed) (hl : ¬ s.Launched) (ho : s.object = .waiting)
    (hs : s.runStep = some s') : s'.Placed := by
  rw [Thread.runStep, touch_of_alive (by simp [ho])] at hs
  split at hs <;> cases hs
  · exact h.proceed ho hl (by simp) ..
  · exact h.proceed ho hl (by simp) ..
  · exact h.proceed ho hl (by simp) ..
  · exact h.proceed ho hl (by simp) ..
  · exact h.launch ho hl _

theorem faults_runStep (ho : s.object = .waiting) (hs : s.runStep = some s') :
    s'.faults = s.faults := by
  rw [Thread.runStep, touch_of_alive (by simp [ho])] at hs
  split at hs <;> cases hs <;> rfl

theorem Inv.runStep (h : s.Inv f given) (hs : s.runStep = some s') : s'.Inv f given := by
  obtain ⟨hsafe, hfilled, hplaced⟩ := h
  have hl : ¬ s.Launched := by
    rintro (hrun | hrun) <;> simp [Thread.runStep, hrun] at hs
  have ho : s.object = .waiting := by
    refine hplaced.alive ?_ hl
    intro hrun
    simp [Thread.runStep, hrun] at hs
  exact ⟨(faults_runStep ho hs).trans hsafe, hfilled.runStep hl ho hs, hplaced.runStep hl ho hs⟩

/-- A thread in its callback renames itself and its object. -/
theorem Filled.setName (h : s.Filled f given) (hrun : s.run = .calling) (name : List Char) :
    Filled f given { s with name, threadName := name } where
  name := fun hl => absurd (.inl hrun) hl
  threadName := fun _ _ => rfl
  this := h.this
  id := h.id
  title := h.title
  cb := fun _ hl => absurd (.inl hrun) hl
  taken := by simp [hrun]
  calls := h.calls

/-- Where the object is does not depend on the names. -/
theorem Placed.setName (h : s.Placed) (name : List Char) :
    Placed { s with name, threadName := name } :=
  ⟨h.creating, h.absent, h.waiting, h.constructed, h.gone, h.semaphore, h.users, h.joins, h.ended,
    h.joined, h.thread, h.released⟩

/-- A thread that names itself changes nothing else as long as its object is there. -/
theorem Inv.setName (h : s.Inv f given) (hrun : s.run = .calling) {name : List Char}
    (hg : name = [] ∨ s.object ≠ .gone) : (s.setName name).Inv f given := by
  rw [Thread.setName]
  split_ifs with hname hthis
  · exact h
  · rw [touch_of_alive (hg.resolve_left hname)]
    exact ⟨h.safe, h.filled.setName hrun name, h.placed.setName name⟩
  · exact absurd (h.filled.this (by simp [hrun])) hthis

/-- What concerns `Join` and the object does not touch the data. -/
theorem Filled.keep (h : s.Filled f given) {object : ObjectPhase} (thread : Bool)
    (semaphore joining clearing released : ℕ) (ho : object ≠ .gone → s.object ≠ .gone) :
    Filled f given { s with object, thread, semaphore, joining, clearing, released } :=
  ⟨h.name, fun hne => h.threadName (ho hne), h.this, h.id, h.title, h.cb, h.taken, h.calls⟩

/-- The data of a thread that is made. -/
theorem Filled.create (h : s.Filled f given) (ho : s.object = .creating) (hplaced : s.Placed)
    (tid : ℤ) :
    Filled f given
      { s with object := .waiting, run := .naming, thread := true, tid := tid } := by
  have hrun := hplaced.creating ho
  have hl : ¬ s.Launched := by simp [Launched, hrun]
  exact {
    name := fun _ => h.name hl
    threadName := by simp
    this := by simp
    id := by simp
    title := by simp [Launched]
    cb := fun _ _ => h.cb (by simp [hrun]) hl
    taken := by simp
    calls := by simp [h.calls, Launched, hrun] }

theorem Filled.finish (h : s.Filled f given) (hrun : s.run = .calling) :
    Filled f given { s with run := .ended } where
  name := fun hl => absurd (.inr rfl) hl
  threadName := fun ho _ => h.threadName ho (by simp [hrun])
  this := fun _ => h.this (by simp [hrun])
  id := fun _ => h.id (by simp [hrun])
  title := fun _ => h.title (.inr (.inr (.inl hrun)))
  cb := fun _ hl => absurd (.inr rfl) hl
  taken := by simp
  calls := by simp [h.calls, Launched, hrun]

/-- Calls of `Join` are made on objects that are there. -/
theorem Placed.constructed_of_user (h : s.Placed) (huser : 0 < s.joining ∨ 0 < s.clearing) :
    s.object = .constructed := by
  by_contra hne
  have hnobody := h.users hne
  omega

theorem Placed.semaphore_eq_zero (h : s.Placed) (ho : s.object ≠ .waiting) : s.semaphore = 0 := by
  simp [h.semaphore, ho]

theorem Placed.enterJoin (h : s.Placed) (ho : s.object = .constructed) (ht : s.thread = true)
    (hjoining : s.joining = 0) (hclearing : s.clearing = 0) :
    Placed { s with joining := s.joining + 1 } := by
  have hreleased := h.released
  refine .of_constructed ho (h.constructed ho) (h.semaphore_eq_zero (by simp [ho])) ?_ ?_ ?_ ?_
  · simp [hjoining, hclearing]
  · simp [ht, hclearing]
  · simp [ht]
  · simpa [ho, ht, hclearing] using hreleased

theorem Placed.returnJoin (h : s.Placed) (hjoining : 0 < s.joining) (hrun : s.run = .ended) :
    Placed { s with
      joining := s.joining - 1
      clearing := s.clearing + 1
      released := s.released + 1 } := by
  have ho := h.constructed_of_user (.inl hjoining)
  have hjoins := h.joins
  have hclearing : s.clearing = 0 := by omega
  have ht : s.thread = true := by
    by_contra ht
    have hnobody := h.thread ho (by simpa using ht)
    omega
  have hreleased : s.released = 0 := by simp [h.released, ho, ht, hclearing]
  refine .of_constructed ho (h.constructed ho) (h.semaphore_eq_zero (by simp [ho])) ?_ ?_ ?_ ?_
  · change s.joining - 1 + (s.clearing + 1) ≤ 1
    omega
  · exact fun _ => hrun
  · simp [ht]
  · simp [hreleased]

theorem Placed.clearThread (h : s.Placed) (hclearing : 0 < s.clearing) :
    Placed { s with thread := false, clearing := s.clearing - 1 } := by
  have ho := h.constructed_of_user (.inr hclearing)
  have hjoins := h.joins
  have hrun := h.ended hclearing
  have hreleased : s.released = 1 := by simp [h.released, ho, hclearing]
  refine .of_constructed ho (h.constructed ho) (h.semaphore_eq_zero (by simp [ho])) ?_ ?_ ?_ ?_
  · change s.joining + (s.clearing - 1) ≤ 1
    omega
  · exact fun _ => hrun
  · intro _
    change s.joining = 0 ∧ s.clearing - 1 = 0
    omega
  · simpa using hreleased

theorem Placed.destroy (h : s.Placed) (ho : s.object = .constructed) (hjoining : s.joining = 0)
    (hclearing : s.clearing = 0) :
    Placed { s with
      object := .gone
      released := if s.thread then s.released + 1 else s.released } := by
  have hl := h.constructed ho
  have hrun : s.run ≠ .absent := by
    rcases hl with hl | hl <;> simp [hl]
  have hreleased := h.released
  refine .of_gone rfl (.inr hl) (h.semaphore_eq_zero (by simp [ho])) hjoining hclearing ?_
  cases ht : s.thread <;> simp [ho, ht, hclearing] at hreleased <;> simp [hreleased, hrun]

theorem Placed.create (h : s.Placed) (ho : s.object = .creating) (tid : ℤ) :
    Placed { s with object := .waiting, run := .naming, thread := true, tid := tid } := by
  obtain ⟨hjoining, hclearing⟩ := h.users (by simp [ho])
  have hsemaphore := h.semaphore_eq_zero (by simp [ho])
  refine .of_waiting rfl (by simp) rfl ?_ hjoining hclearing (h.released_eq_zero (.inl ho))
  simp [hsemaphore, Launched]

/-- `pthread_create` fails. -/
theorem Placed.fail (h : s.Placed) (ho : s.object = .creating) :
    Placed { s with object := .gone } := by
  obtain ⟨hjoining, hclearing⟩ := h.users (by simp [ho])
  have hrun := h.creating ho
  refine .of_gone rfl (.inl hrun) (h.semaphore_eq_zero (by simp [ho])) hjoining hclearing ?_
  rw [if_pos hrun]
  exact h.released_eq_zero (.inl ho)

theorem Placed.wait (h : s.Placed) (ho : s.object = .waiting) (hsemaphore : 0 < s.semaphore) :
    Placed { s with object := .constructed, semaphore := s.semaphore - 1 } := by
  obtain ⟨hjoining, hclearing⟩ := h.users (by simp [ho])
  have ht := h.waiting ho
  have hl : s.Launched := by
    by_contra hl
    simp [h.semaphore, hl] at hsemaphore
  have hone : s.semaphore = 1 := by simp [h.semaphore, ho, hl]
  refine .of_constructed rfl hl ?_ ?_ ?_ ?_ ?_
  · simp [hone]
  · simp [hjoining, hclearing]
  · simp [ht, hclearing]
  · simp [ht]
  · simpa [ht, hclearing] using h.released_eq_zero (.inr ho)

theorem Placed.finish (h : s.Placed) (hrun : s.run = .calling) :
    Placed { s with run := .ended } where
  creating := fun ho => by simp [h.creating ho] at hrun
  absent := by simp
  waiting := h.waiting
  constructed := fun _ => .inr rfl
  gone := fun _ => .inr (.inr rfl)
  semaphore := by simpa [Launched, hrun] using h.semaphore
  users := h.users
  joins := h.joins
  ended := fun _ => rfl
  joined := fun _ _ => rfl
  thread := h.thread
  released := by simpa [hrun] using h.released

theorem Inv.step (h : s.Inv f given) {op : ThreadOp} (hg : s.Sound op)
    (hs : s.step op = some s') : s'.Inv f given := by
  have hsafe := h.safe
  cases op with
  | run => exact h.runStep hs
  | setName name =>
    simp only [Thread.step] at hs
    split_ifs at hs with hrun
    cases hs
    exact h.setName hrun hg
  | create tid =>
    simp only [Thread.step] at hs
    split_ifs at hs with ho
    split at hs <;> cases hs
    · exact ⟨hsafe, h.filled.create ho h.placed _, h.placed.create ho _⟩
    · exact ⟨hsafe, h.filled.keep _ _ _ _ _ (by simp), h.placed.fail ho⟩
  | wait interrupted =>
    obtain rfl : interrupted = false := hg
    simp only [Thread.step, Bool.false_eq_true, if_false] at hs
    split_ifs at hs with ho hsemaphore
    cases hs
    exact ⟨hsafe, h.filled.keep _ _ _ _ _ (by simp [ho]), h.placed.wait ho hsemaphore⟩
  | finish =>
    simp only [Thread.step] at hs
    split_ifs at hs with hrun
    cases hs
    exact ⟨hsafe, h.filled.finish hrun, h.placed.finish hrun⟩
  | enterJoin =>
    obtain ⟨hjoining, hclearing⟩ := hg
    simp only [Thread.step] at hs
    split_ifs at hs with ho ht <;> cases hs
    · exact ⟨hsafe, h.filled.keep _ _ _ _ _ (fun hne => hne),
        h.placed.enterJoin ho ht hjoining hclearing⟩
    · exact h
  | returnJoin =>
    simp only [Thread.step] at hs
    split_ifs at hs with hjoin
    cases hs
    exact ⟨hsafe, h.filled.keep _ _ _ _ _ (fun hne => hne), h.placed.returnJoin hjoin.1 hjoin.2⟩
  | clearThread =>
    simp only [Thread.step] at hs
    split_ifs at hs with hclearing
    have halive : s.object ≠ .gone := by
      intro ho
      have hnobody := h.placed.users (by simp [ho])
      omega
    rw [touch_of_alive halive] at hs
    cases hs
    exact ⟨hsafe, h.filled.keep _ _ _ _ _ (fun hne => hne), h.placed.clearThread hclearing⟩
  | destroy =>
    obtain ⟨hjoining, hclearing⟩ := hg
    simp only [Thread.step] at hs
    split at hs
    · rename_i ho
      cases hs
      exact ⟨hsafe, h.filled.keep _ _ _ _ _ (by simp), h.placed.destroy ho hjoining hclearing⟩
    · cases hs

theorem Inv.orderly (h : s.Inv f given) : s.Orderly f given := by
  obtain ⟨hsafe, hfilled, hplaced⟩ := h
  constructor
  · exact hsafe
  · intro ho
    have hsemaphore := hplaced.semaphore
    have hrun := fun hrun => hplaced.absent hrun
    cases hr : s.run <;> simp_all [Thread.step, Thread.runStep, Launched]
  · intro ho
    have hl := hplaced.constructed ho
    refine ⟨hl, hfilled.id ?_, hfilled.threadName (by simp [ho]) ?_, hfilled.title (.inr (.inr hl))⟩
    · rcases hl with hr | hr <;> simp [hr]
    · rcases hl with hr | hr <;> simp [hr]
  · exact hfilled.calls
  · exact hplaced.joined
  · rw [hplaced.released]
    split_ifs <;> simp
  · intro ho hrun
    rw [hplaced.released, if_pos (.inr ⟨ho, hrun⟩)]

end Steps

/-- In every run of a constructor, its thread and those who use the object, no access meets an
object that is gone, the constructor never hangs, its object tells the truth about the thread when
it has returned, `Join` returns when the thread has ended, and the thread is joined or detached
once. -/
theorem orderly_of_sound (f : ℕ) (given : List Char) {ops : List ThreadOp} {s : Thread}
    (hg : Transition.Meets step Sound (new f given) ops)
    (hr : Transition.run step (new f given) ops = some s) : s.Orderly f given := by
  have hinv : s.Inv f given :=
    Transition.run_invariant (Inv f given) (fun _ _ _ h hg hs => h.step hg hs) (new_inv f given)
      hg hr
  exact hinv.orderly

/-- The object goes after `Join`. -/
def joinedThread : List ThreadOp :=
  [.create (some 7), .run, .run, .run, .run, .run, .setName ['w'], .wait false, .enterJoin,
    .finish, .returnJoin, .clearThread, .destroy]

theorem orderly_of_sound_joinedThread : ∃ s, Transition.run step (new 0 []) joinedThread = some s ∧
    s.Orderly 0 [] := by
  have hs : (Transition.run step (new 0 []) joinedThread).isSome := by decide
  obtain ⟨s, hr⟩ := Option.isSome_iff_exists.mp hs
  exact ⟨s, hr, orderly_of_sound 0 [] (by decide) hr⟩

/-- A signal during the wait leaves the thread behind with an object that is gone. -/
theorem not_orderly_interrupted : ∃ s,
    Transition.run step (new 0 []) [.create (some 7), .wait true, .run] = some s ∧
      s.faults = 1 ∧ ¬ s.Orderly 0 [] := by
  have hs : ((Transition.run step (new 0 [])
      [.create (some 7), .wait true, .run]).map Thread.faults) = some 1 := by decide
  obtain ⟨s, hr, hfaults⟩ := Option.map_eq_some_iff.mp hs
  refine ⟨s, hr, hfaults, ?_⟩
  intro h
  exact absurd (h.safe.symm.trans hfaults) (by decide)

end Thread

end ServerFramework

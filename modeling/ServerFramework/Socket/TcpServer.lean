import ServerFramework.Lib.Transition
import ServerFramework.Socket.Descriptors

/-! # The TCP server

Accept loops run until they see `is_stop_`; `Stop` sets it and schedules a task that closes the
listening Sockets and forgets them. A `Start` that comes before this is over makes the accept loops
go on with closed Sockets.
-/

namespace ServerFramework

namespace TcpServer

/-- Where the fiber of a `StartAccept` is. -/
inductive AcceptPhase where
  /-- Before the test of `is_stop_`. -/
  | testing (k : SocketId)
  /-- In `sock->accept()`. -/
  | accepting (k : SocketId)
  /-- Before the client is scheduled. -/
  | handing (k : SocketId)
  | ended
  deriving DecidableEq, Repr

/-- Where the task of a `Stop` is. -/
inductive StopPhase where
  | scheduled
  /-- In the loop over `socks_`. -/
  | closing (left : List SocketId)
  | ended
  deriving DecidableEq, Repr

namespace AcceptPhase

def sock : AcceptPhase → Option SocketId
  | testing k | accepting k | handing k => some k
  | ended => none

end AcceptPhase

/-- The Sockets that the task is going to close. -/
def StopPhase.left (socks : List SocketId) : StopPhase → List SocketId
  | scheduled => socks
  | closing left => left
  | ended => []

end TcpServer

/-- A server with its accept loops and the tasks of its `Stop`s. -/
structure TcpServer where
  isStop : Bool
  socks : List SocketId
  made : ℕ
  closed : SocketId → Bool
  acceptors : List TcpServer.AcceptPhase
  stops : List TcpServer.StopPhase
  /-- The tasks of `HandleClient`, with the listening Sockets that the clients have come by. -/
  clients : List SocketId

/-- The calls of the owner, and the steps of the accept loops and the tasks by their numbers. -/
inductive TcpServerOp where
  /-- A `bind` to so many addresses that succeeds. -/
  | bind (n : ℕ)
  /-- One that fails. -/
  | bindFails
  | start
  | stop
  | test (i : ℕ)
  | accept (i : ℕ) (ok : Bool)
  | schedule (i : ℕ)
  | runStop (i : ℕ)
  | closeNext (i : ℕ)
  | clear (i : ℕ)
  deriving DecidableEq, Repr

/-- The accept loop that a step is one of. -/
def TcpServerOp.loop : TcpServerOp → Option ℕ
  | test i | accept i _ | schedule i => some i
  | _ => none

namespace TcpServer

def new : TcpServer where
  isStop := true
  socks := []
  made := 0
  closed := fun _ => false
  acceptors := []
  stops := []
  clients := []

def setAcceptor (s : TcpServer) (i : ℕ) (phase : AcceptPhase) : TcpServer :=
  { s with acceptors := s.acceptors.set i phase }

def setStop (s : TcpServer) (i : ℕ) (phase : StopPhase) : TcpServer :=
  { s with stops := s.stops.set i phase }

/-- An accept on a closed Socket fails. -/
def step (s : TcpServer) : TcpServerOp → Option TcpServer
  | .bind n =>
    some { s with socks := s.socks ++ List.range' s.made n, made := s.made + n }
  | .bindFails => some { s with socks := [] }
  | .start =>
    some (if s.isStop then
      { s with isStop := false, acceptors := s.acceptors ++ s.socks.map .testing }
    else s)
  | .stop => some { s with isStop := true, stops := s.stops ++ [.scheduled] }
  | .test i =>
    match s.acceptors[i]? with
    | some (.testing k) => some (s.setAcceptor i (if s.isStop then .ended else .accepting k))
    | _ => none
  | .accept i ok =>
    match s.acceptors[i]? with
    | some (.accepting k) =>
      if ok ∧ s.closed k then none
      else some (s.setAcceptor i (if ok then .handing k else .testing k))
    | _ => none
  | .schedule i =>
    match s.acceptors[i]? with
    | some (.handing k) =>
      some { s.setAcceptor i (.testing k) with clients := s.clients ++ [k] }
    | _ => none
  | .runStop i =>
    match s.stops[i]? with
    | some .scheduled => some (s.setStop i (.closing s.socks))
    | _ => none
  | .closeNext i =>
    match s.stops[i]? with
    | some (.closing (k :: left)) =>
      some { s.setStop i (.closing left) with closed := Function.update s.closed k true }
    | _ => none
  | .clear i =>
    match s.stops[i]? with
    | some (.closing []) => some { s.setStop i .ended with socks := [] }
    | _ => none

/-- The Socket has been closed, or a task is going to close it. -/
def Doomed (s : TcpServer) (k : SocketId) : Prop :=
  s.closed k = true ∨ ∃ phase ∈ s.stops, k ∈ phase.left s.socks

instance (s : TcpServer) (k : SocketId) : Decidable (s.Doomed k) :=
  inferInstanceAs (Decidable (_ ∨ _))

/-- Left to itself the loop ends: it takes three steps at most (`accept` returns, the client is
scheduled, `is_stop_` is tested), and it can take one until it has ended. -/
structure Ends (s : TcpServer) (i : ℕ) : Prop where
  bound : ∀ ops s', Transition.run step s ops = some s' → (∀ op ∈ ops, op.loop = some i) →
    ops.length ≤ 3
  goesOn : ∀ ops s', Transition.run step s ops = some s' → (∀ op ∈ ops, op.loop = some i) →
    s'.acceptors[i]? = some .ended ∨ ∃ op, op.loop = some i ∧ (s'.step op).isSome

/-- The accept loop of a Socket that is closed or going to be closed comes to an end. -/
def NoneSpins (s : TcpServer) : Prop :=
  ∀ i phase, s.acceptors[i]? = some phase → ∀ k ∈ phase.sock, s.Doomed k → s.Ends i

/-- Such a loop sees `is_stop_` at its next test. -/
def StopSeen (s : TcpServer) : Prop :=
  ∀ phase ∈ s.acceptors, ∀ k ∈ phase.sock, s.Doomed k → s.isStop = true

/-- `Start` is not called while there is an accept loop of a closed Socket, or a task is going to
close one of those to be started. -/
def Careful (s : TcpServer) : TcpServerOp → Prop
  | .start => s.isStop = true →
    (∀ k ∈ s.socks, ¬ s.Doomed k) ∧ ∀ phase ∈ s.acceptors, ∀ k ∈ phase.sock, ¬ s.Doomed k
  | _ => True

instance (s : TcpServer) (op : TcpServerOp) : Decidable (s.Careful op) := by
  unfold Careful
  split <;> infer_instance

/-- What careful runs preserve. -/
structure Inv (s : TcpServer) : Prop where
  stopSeen : s.StopSeen
  listening : ∀ k ∈ s.socks, k < s.made
  accepting : ∀ phase ∈ s.acceptors, ∀ k ∈ phase.sock, k < s.made

variable {s s' : TcpServer}

theorem new_inv : new.Inv := ⟨by simp [StopSeen, new], by simp [new], by simp [new]⟩

/-- An acceptor goes on with its Socket, or ends. -/
theorem Inv.setAcceptor (h : s.Inv) {i : ℕ} {phase : AcceptPhase}
    (hi : s.acceptors[i]? = some phase) (phase' : AcceptPhase)
    (hsub : ∀ k ∈ phase'.sock, k ∈ phase.sock) :
    (s.setAcceptor i phase').Inv := by
  have hmem : phase ∈ s.acceptors := List.mem_of_getElem? hi
  refine ⟨?_, h.listening, ?_⟩
  · intro p hp k hk
    rcases List.mem_or_eq_of_mem_set hp with hp | rfl
    · exact h.stopSeen p hp k hk
    · exact h.stopSeen phase hmem k (hsub k hk)
  · intro p hp k hk
    rcases List.mem_or_eq_of_mem_set hp with hp | rfl
    · exact h.accepting p hp k hk
    · exact h.accepting phase hmem k (hsub k hk)

/-- No other Sockets are going to be closed. -/
theorem Inv.shrink (h : s.Inv) (hstop : s'.isStop = s.isStop) (hmade : s'.made = s.made)
    (hacc : s'.acceptors = s.acceptors) (hsocks : ∀ k ∈ s'.socks, k ∈ s.socks)
    (hdoomed : ∀ k, s'.Doomed k → s.Doomed k) : s'.Inv := by
  refine ⟨?_, ?_, ?_⟩
  · intro p hp k hk hd
    rw [hstop]
    exact h.stopSeen p (hacc ▸ hp) k hk (hdoomed k hd)
  · intro k hk
    rw [hmade]
    exact h.listening k (hsocks k hk)
  · rw [hacc, hmade]
    exact h.accepting

/-- A task that goes on closes at most what it was going to close. -/
theorem Doomed.of_setStop {k : SocketId} {i : ℕ} {phase phase' : StopPhase}
    (h : (s.setStop i phase').Doomed k) (hi : s.stops[i]? = some phase)
    (hsub : phase'.left s.socks ⊆ phase.left s.socks) : s.Doomed k := by
  rcases h with hc | ⟨p, hp, hk⟩
  · exact .inl hc
  · rcases List.mem_or_eq_of_mem_set hp with hp | rfl
    · exact .inr ⟨p, hp, hk⟩
    · exact .inr ⟨phase, List.mem_of_getElem? hi, hsub hk⟩

theorem Inv.bind (h : s.Inv) (n : ℕ) :
    { s with socks := s.socks ++ List.range' s.made n, made := s.made + n }.Inv := by
  refine ⟨?_, ?_, ?_⟩
  · intro p hp k hk hd
    have hlt := h.accepting p hp k hk
    apply h.stopSeen p hp k hk
    rcases hd with hc | ⟨q, hq, hkq⟩
    · exact .inl hc
    · refine .inr ⟨q, hq, ?_⟩
      cases q with
      | scheduled =>
        rcases List.mem_append.mp hkq with hk' | hk'
        · exact hk'
        · exact absurd hlt (Nat.not_lt.mpr (List.mem_range'_1.mp hk').1)
      | closing left => exact hkq
      | ended => exact hkq
  · intro k hk
    rcases List.mem_append.mp hk with hk | hk
    · exact (h.listening k hk).trans_le (Nat.le_add_right _ _)
    · exact (List.mem_range'_1.mp hk).2
  · intro p hp k hk
    exact (h.accepting p hp k hk).trans_le (Nat.le_add_right _ _)

/-- The loops that `Start` schedules. -/
theorem mem_start {p : AcceptPhase} : p ∈ s.acceptors ++ s.socks.map AcceptPhase.testing ↔
    p ∈ s.acceptors ∨ ∃ k ∈ s.socks, AcceptPhase.testing k = p := by
  rw [List.mem_append, List.mem_map]

theorem Inv.start (h : s.Inv) (hg : s.Careful .start) (hstop : s.isStop = true) :
    { s with
      isStop := false
      acceptors := s.acceptors ++ s.socks.map AcceptPhase.testing }.Inv := by
  obtain ⟨hsocks, hacc⟩ := hg hstop
  refine ⟨?_, h.listening, ?_⟩
  · intro p hp k hk hd
    rcases mem_start.mp hp with hp | ⟨j, hj, rfl⟩
    · exact absurd hd (hacc p hp k hk)
    · obtain rfl := Option.some.inj hk
      exact absurd hd (hsocks j hj)
  · intro p hp k hk
    rcases mem_start.mp hp with hp | ⟨j, hj, rfl⟩
    · exact h.accepting p hp k hk
    · obtain rfl := Option.some.inj hk
      exact h.listening j hj

/-- A `Start` that is not careful keeps a loop from seeing `is_stop_`. -/
theorem not_stopSeen_of_start (hg : ¬ s.Careful .start) (hs : s.step .start = some s') :
    ¬ s'.StopSeen := by
  obtain ⟨hstop, hnot⟩ : s.isStop = true ∧ ¬ ((∀ k ∈ s.socks, ¬ s.Doomed k) ∧
      ∀ phase ∈ s.acceptors, ∀ k ∈ phase.sock, ¬ s.Doomed k) := Classical.not_imp.mp hg
  obtain rfl := Option.some.inj hs
  rw [if_pos hstop]
  intro hseen
  apply hnot
  have hspin : ∀ p ∈ s.acceptors ++ s.socks.map .testing, ∀ k ∈ p.sock, ¬ s.Doomed k := by
    intro p hp k hk hd
    exact Bool.false_ne_true (hseen p hp k hk hd)
  refine ⟨fun k hk => ?_, fun p hp k hk => ?_⟩
  · exact hspin (.testing k) (mem_start.mpr (.inr ⟨k, hk, rfl⟩)) k rfl
  · exact hspin p (mem_start.mpr (.inl hp)) k hk

theorem Inv.step {op : TcpServerOp} (h : s.Inv) (hg : s.Careful op) (hs : s.step op = some s') :
    s'.Inv := by
  cases op with
  | bind n =>
    obtain rfl := Option.some.inj hs
    exact h.bind n
  | bindFails =>
    obtain rfl := Option.some.inj hs
    refine h.shrink rfl rfl rfl (by simp) ?_
    rintro k (hc | ⟨p, hp, hk⟩)
    · exact .inl hc
    · refine .inr ⟨p, hp, ?_⟩
      cases p with
      | scheduled => cases hk
      | closing left => exact hk
      | ended => exact hk
  | start =>
    obtain rfl := Option.some.inj hs
    split_ifs with hstop
    · exact h.start hg hstop
    · exact h
  | stop =>
    obtain rfl := Option.some.inj hs
    exact ⟨fun _ _ _ _ _ => rfl, h.listening, h.accepting⟩
  | test i =>
    simp only [TcpServer.step] at hs
    split at hs
    case h_1 k hi =>
      obtain rfl := Option.some.inj hs
      apply h.setAcceptor hi
      split_ifs <;> simp [AcceptPhase.sock]
    case h_2 => cases hs
  | accept i ok =>
    simp only [TcpServer.step] at hs
    split at hs
    case h_1 k hi =>
      obtain ⟨-, hs⟩ := Option.ite_none_left_eq_some.mp hs
      obtain rfl := Option.some.inj hs
      apply h.setAcceptor hi
      split_ifs <;> simp [AcceptPhase.sock]
    case h_2 => cases hs
  | schedule i =>
    simp only [TcpServer.step] at hs
    split at hs
    case h_1 k hi =>
      obtain rfl := Option.some.inj hs
      have hset := h.setAcceptor hi (.testing k) (by simp [AcceptPhase.sock])
      exact ⟨hset.stopSeen, hset.listening, hset.accepting⟩
    case h_2 => cases hs
  | runStop i =>
    simp only [TcpServer.step] at hs
    split at hs
    case h_1 hi =>
      obtain rfl := Option.some.inj hs
      exact h.shrink rfl rfl rfl (fun _ hk => hk) fun k hd => hd.of_setStop hi fun _ hk => hk
    case h_2 => cases hs
  | closeNext i =>
    simp only [TcpServer.step] at hs
    split at hs
    case h_1 k left hi =>
      obtain rfl := Option.some.inj hs
      refine h.shrink rfl rfl rfl (fun _ hk => hk) fun j hd => ?_
      by_cases hj : j = k
      · exact .inr ⟨_, List.mem_of_getElem? hi, hj ▸ List.mem_cons_self⟩
      · have hd' : (s.setStop i (.closing left)).Doomed j :=
          hd.imp_left fun hc => by simpa [setStop, hj] using hc
        exact hd'.of_setStop hi (List.subset_cons_self k left)
    case h_2 => cases hs
  | clear i =>
    simp only [TcpServer.step] at hs
    split at hs
    case h_1 hi =>
      obtain rfl := Option.some.inj hs
      refine h.shrink rfl rfl rfl (by simp) ?_
      rintro k (hc | ⟨p, hp, hk⟩)
      · exact .inl hc
      · rcases List.mem_or_eq_of_mem_set hp with hp | rfl
        · refine .inr ⟨p, hp, ?_⟩
          cases p with
          | scheduled => cases hk
          | closing left => exact hk
          | ended => exact hk
        · cases hk
    case h_2 => cases hs

section Loops

/-- How many steps a loop takes until it has seen `is_stop_`. -/
def AcceptPhase.togo : AcceptPhase → ℕ
  | testing _ => 1
  | accepting _ => 3
  | handing _ => 2
  | ended => 0

theorem AcceptPhase.togo_le (phase : AcceptPhase) : phase.togo ≤ 3 := by
  cases phase <;> simp [togo]

variable {i : ℕ} {phase : AcceptPhase} {op : TcpServerOp}

theorem getElem?_setAcceptor (hi : s.acceptors[i]? = some phase) (phase' : AcceptPhase) :
    (s.setAcceptor i phase').acceptors[i]? = some phase' :=
  List.getElem?_set_self (List.getElem?_eq_some_iff.mp hi).1

/-- After its own step a loop that is to stop is nearer to its end. -/
theorem loop_step (hi : s.acceptors[i]? = some phase) (hop : op.loop = some i)
    (hs : s.step op = some s') :
    (∃ k, k ∈ phase.sock) ∧ s'.isStop = s.isStop ∧ s'.closed = s.closed ∧
      ∃ phase', s'.acceptors[i]? = some phase' ∧ (∀ k ∈ phase'.sock, k ∈ phase.sock) ∧
        (s.isStop = true → phase'.togo < phase.togo) := by
  cases op with
  | test j =>
    obtain rfl := Option.some.inj hop
    simp only [TcpServer.step, hi] at hs
    cases phase with
    | testing k =>
      obtain rfl := Option.some.inj hs
      refine ⟨⟨k, rfl⟩, rfl, rfl, _, getElem?_setAcceptor hi _, ?_, fun hstop => ?_⟩
      · split_ifs <;> simp [AcceptPhase.sock]
      · simp [hstop, AcceptPhase.togo]
    | _ => cases hs
  | accept j ok =>
    obtain rfl := Option.some.inj hop
    simp only [TcpServer.step, hi] at hs
    cases phase with
    | accepting k =>
      obtain ⟨-, hs⟩ := Option.ite_none_left_eq_some.mp hs
      obtain rfl := Option.some.inj hs
      refine ⟨⟨k, rfl⟩, rfl, rfl, _, getElem?_setAcceptor hi _, ?_, fun _ => ?_⟩
      · split_ifs <;> simp [AcceptPhase.sock]
      · split_ifs <;> simp [AcceptPhase.togo]
    | _ => cases hs
  | schedule j =>
    obtain rfl := Option.some.inj hop
    simp only [TcpServer.step, hi] at hs
    cases phase with
    | handing k =>
      obtain rfl := Option.some.inj hs
      exact ⟨⟨k, rfl⟩, rfl, rfl, _, getElem?_setAcceptor hi _, fun _ => id,
        fun _ => by simp [AcceptPhase.togo]⟩
    | _ => cases hs
  | _ => cases hop

/-- The steps of others leave a loop where it is. -/
theorem other_step (hi : s.acceptors[i]? = some phase) (hop : op.loop ≠ some i)
    (hs : s.step op = some s') : s'.acceptors[i]? = some phase := by
  have hset : ∀ j phase', j ≠ i → (s.setAcceptor j phase').acceptors[i]? = some phase :=
    fun j phase' hj => (List.getElem?_set_ne hj).trans hi
  cases op with
  | start =>
    obtain rfl := Option.some.inj hs
    split_ifs
    · exact (List.getElem?_append_left (List.getElem?_eq_some_iff.mp hi).1).trans hi
    · exact hi
  | bind n | bindFails | stop =>
    obtain rfl := Option.some.inj hs
    exact hi
  | test j | schedule j =>
    have hj : j ≠ i := fun hj => hop (congrArg some hj)
    simp only [TcpServer.step] at hs
    split at hs
    case h_1 =>
      obtain rfl := Option.some.inj hs
      exact hset j _ hj
    case h_2 => cases hs
  | accept j ok =>
    have hj : j ≠ i := fun hj => hop (congrArg some hj)
    simp only [TcpServer.step] at hs
    split at hs
    case h_1 =>
      obtain ⟨-, hs⟩ := Option.ite_none_left_eq_some.mp hs
      obtain rfl := Option.some.inj hs
      exact hset j _ hj
    case h_2 => cases hs
  | runStop j | closeNext j | clear j =>
    simp only [TcpServer.step] at hs
    split at hs
    case h_1 =>
      obtain rfl := Option.some.inj hs
      exact hi
    case h_2 => cases hs

/-- A loop that has not ended can go on: on a closed Socket `accept` fails. -/
theorem exists_loop_step (hi : s.acceptors[i]? = some phase) :
    phase = .ended ∨ ∃ op, op.loop = some i ∧ (s.step op).isSome := by
  cases phase with
  | testing k => exact .inr ⟨.test i, rfl, by simp [TcpServer.step, hi]⟩
  | accepting k => exact .inr ⟨.accept i false, rfl, by simp [TcpServer.step, hi]⟩
  | handing k => exact .inr ⟨.schedule i, rfl, by simp [TcpServer.step, hi]⟩
  | ended => exact .inl rfl

theorem loop_run {ops : List TcpServerOp} (hi : s.acceptors[i]? = some phase)
    (hr : Transition.run step s ops = some s') (hops : ∀ op ∈ ops, op.loop = some i) :
    (∃ phase', s'.acceptors[i]? = some phase') ∧ (s.isStop = true → ops.length ≤ phase.togo) := by
  induction ops generalizing s phase with
  | nil =>
    obtain rfl : s = s' := by simpa using hr
    exact ⟨⟨phase, hi⟩, fun _ => Nat.zero_le _⟩
  | cons op ops ih =>
    obtain ⟨hop, hops⟩ := List.forall_mem_cons.mp hops
    obtain ⟨t, ht, hr⟩ := Transition.run_cons_iff.mp hr
    obtain ⟨-, hstop, -, phase', hi', -, hlt⟩ := loop_step hi hop ht
    obtain ⟨hphase, hle⟩ := ih hi' hr hops
    refine ⟨hphase, fun hs => ?_⟩
    have hrest := hle (hstop.trans hs)
    have hnear := hlt hs
    rw [List.length_cons]
    omega

theorem ends_of_isStop (hi : s.acceptors[i]? = some phase) (hstop : s.isStop = true) :
    s.Ends i where
  bound := fun _ _ hr hops => ((loop_run hi hr hops).2 hstop).trans phase.togo_le
  goesOn := by
    intro ops s' hr hops
    obtain ⟨phase', hi'⟩ := (loop_run hi hr hops).1
    rcases exists_loop_step hi' with rfl | hgo
    · exact .inl hi'
    · exact .inr hgo

/-- Without `is_stop_` a loop goes on for ever: a test and a failing `accept` lead it back. -/
theorem exists_spin {k : SocketId} (hstop : s.isStop = false)
    (hi : s.acceptors[i]? = some (.testing k)) (n : ℕ) :
    ∃ ops s', Transition.run step s ops = some s' ∧ (∀ op ∈ ops, op.loop = some i) ∧
      n ≤ ops.length := by
  induction n generalizing s with
  | zero => exact ⟨[], s, rfl, by simp, le_rfl⟩
  | succ n ih =>
    have hacc := getElem?_setAcceptor hi (.accepting k)
    have htest : s.step (.test i) = some (s.setAcceptor i (.accepting k)) := by
      simp [TcpServer.step, hi, hstop]
    have haccept : (s.setAcceptor i (.accepting k)).step (.accept i false) =
        some ((s.setAcceptor i (.accepting k)).setAcceptor i (.testing k)) := by
      simp [TcpServer.step, hacc]
    obtain ⟨ops, s', hr, hops, hn⟩ :=
      ih (s := (s.setAcceptor i (.accepting k)).setAcceptor i (.testing k)) hstop
        (getElem?_setAcceptor hacc (.testing k))
    refine ⟨.test i :: .accept i false :: ops, s', ?_, ?_, ?_⟩
    · exact Transition.run_cons_iff.mpr ⟨_, htest, Transition.run_cons_iff.mpr ⟨_, haccept, hr⟩⟩
    · simpa [TcpServerOp.loop] using hops
    · simp only [List.length_cons]
      omega

theorem isStop_of_ends {k : SocketId} (hi : s.acceptors[i]? = some phase) (hk : k ∈ phase.sock)
    (h : s.Ends i) : s.isStop = true := by
  by_contra hstop
  rw [Bool.not_eq_true] at hstop
  have hspin : ∀ t pre, Transition.run step s pre = some t → (∀ op ∈ pre, op.loop = some i) →
      t.isStop = false → t.acceptors[i]? ≠ some (.testing k) := by
    intro t pre hpre hown ht hti
    obtain ⟨ops, s', hr, hops, hn⟩ := exists_spin ht hti 4
    have hle := h.bound (pre ++ ops) s' (Transition.run_append_iff.mpr ⟨t, hpre, hr⟩)
      (List.forall_mem_append.mpr ⟨hown, hops⟩)
    rw [List.length_append] at hle
    omega
  cases phase with
  | testing j =>
    obtain rfl := Option.some.inj hk
    exact hspin s [] rfl (by simp) hstop hi
  | accepting j =>
    obtain rfl := Option.some.inj hk
    refine hspin (s.setAcceptor i (.testing j)) [.accept i false] ?_ (by simp [TcpServerOp.loop])
      hstop (getElem?_setAcceptor hi _)
    simp [Transition.run, TcpServer.step, hi]
  | handing j =>
    obtain rfl := Option.some.inj hk
    refine hspin { s.setAcceptor i (.testing j) with clients := s.clients ++ [j] } [.schedule i] ?_
      (by simp [TcpServerOp.loop]) hstop (getElem?_setAcceptor hi _)
    simp [Transition.run, TcpServer.step, hi]
  | ended => cases hk

theorem noneSpins_iff : s.NoneSpins ↔ s.StopSeen := by
  constructor
  · intro h phase hmem k hk hd
    obtain ⟨i, hi⟩ := List.mem_iff_getElem?.mp hmem
    exact isStop_of_ends hi hk (h i phase hi k hk hd)
  · intro h i phase hi k hk hd
    exact ends_of_isStop hi (h phase (List.mem_of_getElem? hi) k hk hd)

/-- A closed Socket stays closed. -/
theorem closed_step {k : SocketId} (hk : s.closed k = true) (hs : s.step op = some s') :
    s'.closed k = true := by
  cases op with
  | bind n | bindFails | start | stop =>
    obtain rfl := Option.some.inj hs
    first | exact hk | (split_ifs <;> exact hk)
  | accept j ok =>
    simp only [TcpServer.step] at hs
    split at hs
    case h_1 =>
      obtain ⟨-, hs⟩ := Option.ite_none_left_eq_some.mp hs
      obtain rfl := Option.some.inj hs
      exact hk
    case h_2 => cases hs
  | closeNext j =>
    simp only [TcpServer.step] at hs
    split at hs
    case h_1 l left _ =>
      obtain rfl := Option.some.inj hs
      by_cases hkl : k = l
      · simp [hkl]
      · simpa [setStop, hkl] using hk
    case h_2 => cases hs
  | _ =>
    simp only [TcpServer.step] at hs
    split at hs
    case h_1 =>
      obtain rfl := Option.some.inj hs
      exact hk
    case h_2 => cases hs

/-- The loop of a closed Socket takes few steps more, whatever else is done. -/
theorem count_loop_steps_le {ops : List TcpServerOp} (h : s.Inv)
    (hr : Transition.run step s ops = some s') (hg : Transition.Meets step Careful s ops)
    (hi : s.acceptors[i]? = some phase) (hclosed : ∀ k ∈ phase.sock, s.closed k = true) :
    ops.countP (fun op => op.loop = some i) ≤ phase.togo := by
  induction ops generalizing s phase with
  | nil => exact Nat.zero_le _
  | cons op ops ih =>
    obtain ⟨t, ht, hr⟩ := Transition.run_cons_iff.mp hr
    have hinv := h.step hg.1 ht
    rw [List.countP_cons]
    by_cases hop : op.loop = some i
    · obtain ⟨⟨k, hk⟩, -, hsame, phase', hi', hsub, hlt⟩ := loop_step hi hop ht
      have hstop := h.stopSeen phase (List.mem_of_getElem? hi) k hk (.inl (hclosed k hk))
      have hrest := ih hinv hr (hg.2 t ht) hi' fun k hk => hsame ▸ hclosed k (hsub k hk)
      have hnear := hlt hstop
      rw [if_pos (by simpa using hop)]
      omega
    · rw [if_neg (by simpa using hop), Nat.add_zero]
      exact ih hinv hr (hg.2 t ht) (other_step hi hop ht) fun k hk => closed_step (hclosed k hk) ht

end Loops

/-- In every run, the accept loops of closed Sockets come to an end if and only if no `Start` comes
before they have, and before the task of a `Stop` has closed the Sockets that it is going to. Then
the loop of a closed Socket takes three steps more at most, whatever is done between them. -/
theorem noneSpins_iff_careful (ops : List TcpServerOp) (s : TcpServer)
    (hr : Transition.run step new ops = some s) :
    (Transition.Always step NoneSpins new ops ↔ Transition.Meets step Careful new ops) ∧
      ∀ rest s', Transition.run step s rest = some s' →
        Transition.Meets step Careful new (ops ++ rest) → ∀ i phase,
          s.acceptors[i]? = some phase → (∀ k ∈ phase.sock, s.closed k = true) →
            rest.countP (fun op => op.loop = some i) ≤ 3 := by
  constructor
  · refine Transition.always_iff_meets_of_inv (Q := Inv) (fun _ h => noneSpins_iff.mpr h.stopSeen)
      (fun _ _ _ h hg hs => h.step hg hs) ?_ new_inv hr
    intro s op s' _ hs hg
    cases op with
    | start => exact noneSpins_iff.not.mpr (not_stopSeen_of_start hg hs)
    | _ => exact absurd trivial hg
  · intro rest s' hrest hg i phase hi hclosed
    obtain ⟨hops, hrestg⟩ := (Transition.meets_append_iff hr).mp hg
    have hinv : s.Inv := Transition.run_invariant Inv (fun _ _ _ h hg hs => h.step hg hs) new_inv
      hops hr
    exact (count_loop_steps_le hinv hrest hrestg hi hclosed).trans phase.togo_le

/-- A server is started again after a `Stop` whose task has run and whose accept loop has ended. -/
def restarted : List TcpServerOp :=
  [.bind 1, .start, .test 0, .accept 0 true, .schedule 0, .stop, .runStop 0, .closeNext 0, .test 0,
    .clear 0, .bind 1, .start, .test 1]

theorem noneSpins_iff_careful_restarted :
    (∃ s, Transition.run step new restarted = some s ∧ s.acceptors = [.ended, .accepting 1] ∧
      s.clients = [0] ∧ Transition.Always step NoneSpins new restarted) ∧
    (restarted.drop 8).countP (fun op => op.loop = some 0) ≤ 3 := by
  have hrun : (Transition.run step new restarted).map (fun s => (s.acceptors, s.clients)) =
      some ([.ended, .accepting 1], [0]) := by decide
  obtain ⟨s, hs, hh⟩ := Option.map_eq_some_iff.mp hrun
  obtain ⟨hacc, hclients⟩ := Prod.mk.inj hh
  have hclosed : (Transition.run step new (restarted.take 8)).map
      (fun s => (s.acceptors, s.closed 0)) = some ([.testing 0], true) := by decide
  obtain ⟨c, hc, hh⟩ := Option.map_eq_some_iff.mp hclosed
  obtain ⟨hloop, hsock⟩ := Prod.mk.inj hh
  obtain ⟨c', hc', hrest⟩ := Transition.run_append_iff.mp
    ((List.take_append_drop 8 restarted).symm ▸ hs)
  obtain rfl : c = c' := Option.some.inj (hc.symm.trans hc')
  refine ⟨⟨s, hs, hacc, hclients, (noneSpins_iff_careful restarted s hs).1.mpr (by decide)⟩,
    (noneSpins_iff_careful (restarted.take 8) c hc).2 (restarted.drop 8) s hrest (by decide) 0
      (.testing 0) (by rw [hloop]; rfl) ?_⟩
  rintro k hk
  obtain rfl := Option.some.inj hk
  exact hsock

end TcpServer

end ServerFramework

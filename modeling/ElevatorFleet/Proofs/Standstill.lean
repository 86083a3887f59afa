import ElevatorFleet.Proofs.Liveness
import ElevatorFleet.Proofs.Waiting

/-!
# Standstills

However much the queues hold, the replication task can come to wait for the transport task while that waits
for it (`reaches_transport_wait`), and for the liveness task while that waits for it
(`reaches_liveness_wait`). Neither of the two does anything from then on. Tasks that wait for one another do so
in one of these ways, or with the request task between the liveness task and the replication task
(`standstills`).
-/
namespace ElevatorFleet
open Tasks

namespace Host
variable {self : PeerId} {n : UInt8} {timeout : Duration} {capacity : Nat} {transport : Transport}
  {hasAssigner : Bool} {now : Instant} {start : Host}

/-! ### What is typed and heard -/

theorem react_state (self : PeerId) (served : 0 < n) :
    Console.react self n "state 0 idle stop" = some (.toReplication default) := by
  have words : Blank.words "state 0 idle stop" = ["state","0","idle","stop"] := by decide +kernel
  have state : Command.readState "0" "idle" "stop" = .ok default := by decide +kernel
  have inside : Command.check (.state default) n = .ok () := by
    rw [Command.check]
    exact if_pos served
  simp only [Console.react,Command.parse,words,Command.ofWords,state]
  show (do let _ ← Command.check (.state default) n; pure (.state default) : Except EntryError Command).toOption.map _ = _
  rw [inside]
  rfl

/-- The command that tells of the health of the controller. -/
def healthLine (alive : Bool) : String := if alive then "recover" else "fail"

theorem react_health (self : PeerId) (n : UInt8) (alive : Bool) :
    Console.react self n (healthLine alive) = some (.toLiveness ⟨self,alive⟩) := by
  cases alive with
  | false =>
    have words : Blank.words (healthLine false) = ["fail"] := by decide +kernel
    rw [Console.react,Command.parse,words]
    rfl
  | true =>
    have words : Blank.words (healthLine true) = ["recover"] := by decide +kernel
    rw [Console.react,Command.parse,words]
    rfl

/-- A snapshot of `peer` that tells of no calls. -/
def greeting (peer : PeerId) : Broadcast := ⟨peer,⟨[],[],∅⟩,default⟩

/-- Whoever listens, some datagram is the snapshot of another. -/
theorem exists_foreign (self : PeerId) : ∃ bytes m, Transport.receive bytes = some m ∧ m.source ≠ self := by
  have second : Transport.receive (Json.write (greeting ⟨2⟩)) = some (greeting ⟨2⟩) := by decide +kernel
  have third : Transport.receive (Json.write (greeting ⟨3⟩)) = some (greeting ⟨3⟩) := by decide +kernel
  by_cases same : self = ⟨2⟩
  · subst same
    exact ⟨_,_,third,by decide⟩
  · exact ⟨_,_,second,Ne.symm same⟩

/-- A queue fills up where one more message can always be brought into it. -/
theorem reaches_replicate {α : Type} (state : List α → Host) {message : α} {limit : Nat}
    (more : ∀ queue, queue.length < limit → start.Reaches (state queue) → start.Reaches (state (queue ++ [message])))
    (begun : start.Reaches (state [])) {count : Nat} (room : count ≤ limit) :
    start.Reaches (state (List.replicate count message)) := by
  induction count with
  | zero => exact begun
  | succ count ih =>
    have free : (List.replicate count message).length < limit := by
      rw [List.length_replicate]
      exact room
    rw [List.replicate_succ']
    exact more _ free (ih (Nat.le_of_succ_le room))

/-! ### Waiting for the transport task -/

/-- A host whose transport task and replication task have been busy with broadcasts only. -/
def exchanging (base : Host) (sent heard : List Broadcast) (telling : List Replication.Action)
    (handing : List Broadcast) : Host :=
  { base with
    queues := { base.queues with outbound := sent, inbound := heard }
    pending := { base.pending with replication := telling, transport := handing } }

section
variable (base : Host) {b m : Broadcast} {bytes : Bytes} {sent heard handing : List Broadcast}
  {telling : List Replication.Action}

theorem move?_tick (tells : base.replication.replica.outbound = some b) :
    (exchanging base sent heard [] handing).move? .broadcastTick =
      some (exchanging base sent heard [.send b] handing) := by
  simp [move?,isWaiting,exchanging,onReplication,Replication.react,tells]

theorem move?_send (room : sent.length < base.capacity) :
    (exchanging base sent heard [.send m] handing).move? (.act .replication) =
      some (exchanging base (sent ++ [m]) heard [] handing) := by
  simp [move?,act,actReplication,join,exchanging,room]

theorem move?_datagram (reads : Transport.receive bytes = some m) :
    (exchanging base sent heard telling []).move? (.datagram bytes) =
      some (exchanging base sent heard telling [m]) := by
  simp [move?,isWaiting,exchanging,reads]

theorem move?_hand (room : heard.length < base.capacity) :
    (exchanging base sent heard telling [m]).move? (.act .transport) =
      some (exchanging base sent (heard ++ [m]) telling []) := by
  simp [move?,act,actTransport,join,exchanging,room]

theorem reaches_sent (tells : base.replication.replica.outbound = some b)
    (begun : start.Reaches (exchanging base [] [] [] [])) :
    start.Reaches (exchanging base (List.replicate base.capacity b) [] [] []) := by
  refine reaches_replicate (exchanging base · [] [] []) (fun sent free before => ?_) begun (Nat.le_refl base.capacity)
  exact .next (.next before (move?_tick base tells)) (move?_send base free)

theorem reaches_heard (reads : Transport.receive bytes = some m)
    (begun : start.Reaches (exchanging base sent [] [] [])) :
    start.Reaches (exchanging base sent (List.replicate base.capacity m) [] []) := by
  refine reaches_replicate (exchanging base sent · [] []) (fun heard free before => ?_) begun (Nat.le_refl base.capacity)
  exact .next (.next before (move?_datagram base reads)) (move?_hand base free)

end

/-- A host whose replication task knows the state of the own car. -/
def informed (h : Host) : Host :=
  { h with replication := { h.replication with replica := h.replication.replica.setCar default } }

/-- Once the state of the own car is typed in, there is a broadcast to send. -/
theorem reaches_informed (served : 0 < n) (roomy : 0 < capacity) :
    ∃ base b, base.replication.replica.outbound = some b ∧
      (new self n timeout capacity transport hasAssigner now).Reaches (exchanging base [] [] [] []) := by
  let start := new self n timeout capacity transport hasAssigner now
  have reads : Console.react start.board.self start.orders.view.numFloors "state 0 idle stop" =
      some (.toReplication default) := react_state self served
  have line : start.move? (.line "state 0 idle stop") =
      some { start with pending := { console := [.toReplication default] } } := by
    simp only [move?,onLine,reads]
    rfl
  have typed : { start with pending := { console := [.toReplication default] } }.move? (.act .console) =
      some { start with queues := { carStates := [default] } } := by
    simp [move?,act,actConsole,join,start,new,roomy]
  have taken : { start with queues := { carStates := [default] } }.move? (.take .carStates) =
      some { start.informed with pending := { replication := [.toOrders ⟨self,default⟩] } } := rfl
  have told : { start.informed with pending := { replication := [.toOrders ⟨self,default⟩] } }.move? (.act .replication) =
      some { start.informed with queues := { carReports := [⟨self,default⟩] } } := by
    simp [move?,act,actReplication,join,informed,start,new,roomy]
  refine ⟨{ start.informed with queues := { carReports := [⟨self,default⟩] } },
    ⟨self,start.replication.replica.registry,default⟩,?_,.next (.next (.next (.next .here line) typed) taken) told⟩
  have lives : (PeerSet.of [self]).contains self = true := by simp [PeerSet.of]
  exact if_pos lives

/-- The queues between the two tasks are full in both directions, and both have one more message. -/
theorem reaches_transport_wait (served : 0 < n) (roomy : 0 < capacity) :
    ∃ h, (new self n timeout capacity transport hasAssigner now).Reaches h ∧
      h.WaitsFor .replication .transport ∧ h.WaitsFor .transport .replication := by
  obtain ⟨bytes,m,reads,_⟩ := exists_foreign self
  obtain ⟨base,b,tells,ready⟩ := reaches_informed served roomy
  have filled := reaches_heard base reads (reaches_sent base tells ready)
  refine ⟨_,.next (.next filled (move?_datagram base reads)) (move?_tick base tells),?_,?_⟩
  · exact ⟨.outbound,rfl,by simp [exchanging,Queues.size],rfl⟩
  · exact ⟨.inbound,rfl,by simp [exchanging,Queues.size],rfl⟩

/-! ### Waiting for the liveness task -/

/-- A host at which somebody types. -/
def typing (base : Host) (typed : List Console.Action) (signals : List Signal) : Host :=
  { base with
    queues := { base.queues with signals := signals }
    pending := { base.pending with console := typed } }

/-- A host whose liveness task has been busy with the membership only. -/
def announcing (base : Host) (p : Presence) (requests replication orders : List PeerSet)
    (notices : List Liveness.Notice) : Host :=
  { base with
    presence := p
    queues := { requestMembers := requests, replicationMembers := replication, orderMembers := orders }
    pending := { liveness := notices } }

/-- The monitor of `peer` has last handed on that `peer` is alive, or that it is not. -/
structure LastTold (peer : PeerId) (alive : Bool) (p : Presence) : Prop where
  owner : p.self = peer
  told : peer ∈ p.published ↔ alive = true

/-- When the controller tells the contrary of what was handed on last, a new set is handed on. -/
theorem LastTold.flips {alive : Bool} {p : Presence} (last : LastTold self alive p) (now : Instant) :
    ∃ q set, Liveness.react p now (.signal ⟨self,!alive⟩) = (q,some set) ∧ LastTold self (!alive) q := by
  let q := p.observe ⟨self,!alive⟩ now
  have failed : q.selfFailed = alive := by
    rw [Presence.selfFailed_observe,if_pos last.owner.symm]
    exact Bool.not_not alive
  have lives : self ∈ q.aliveAt now ↔ alive = false := by
    rw [← failed,← last.owner]
    exact Presence.mem_aliveAt_self
  have news : q.aliveAt now ≠ q.published := by
    intro same
    rw [same] at lives
    cases alive with
    | false => exact absurd (last.told.mp (lives.mpr rfl)) (by decide)
    | true => exact absurd (lives.mp (last.told.mpr rfl)) (by decide)
  refine ⟨{ q with published := q.aliveAt now },q.aliveAt now,?_,last.owner,?_⟩
  · rw [Liveness.react,if_pos last.owner.symm,Presence.poll,if_neg news]
  · rw [lives,Bool.not_eq_true']

section
variable (base : Host) {p q : Presence} {requests replication orders : List PeerSet} {set : PeerSet}
  {notices : List Liveness.Notice} {signals : List Signal} {s : Signal} {alive : Bool}

theorem move?_line : (typing base [] signals).move? (.line (healthLine alive)) =
    some (typing base [.toLiveness ⟨base.board.self,alive⟩] signals) := by
  simp [move?,isWaiting,typing,onLine,react_health]

theorem move?_typed (room : signals.length < base.capacity) :
    (typing base [.toLiveness s] signals).move? (.act .console) = some (typing base [] (signals ++ [s])) := by
  simp [move?,act,actConsole,join,typing,room]

theorem move?_signal (reacts : Liveness.react p base.now (.signal s) = (q,some set)) :
    (typing (announcing base p requests replication orders []) [] [s]).move? (.take .signals) =
      some (announcing base q requests replication orders (Liveness.notices subscribers (some set))) := by
  simp [move?,isWaiting,takeFrom,typing,announcing,onLiveness,reacts,QueueName.reader]

theorem move?_requests (room : requests.length < base.capacity) :
    (announcing base p requests replication orders (⟨"requests",set⟩ :: notices)).move? (.act .liveness) =
      some (announcing base p (requests ++ [set]) replication orders notices) := by
  simp [move?,act,actLiveness,join,announcing,room]

theorem move?_replication (room : replication.length < base.capacity) :
    (announcing base p requests replication orders (⟨"replication",set⟩ :: notices)).move? (.act .liveness) =
      some (announcing base p requests (replication ++ [set]) orders notices) := by
  simp [move?,act,actLiveness,join,announcing,room]

theorem move?_orders (room : orders.length < base.capacity) :
    (announcing base p requests replication orders (⟨"orders",set⟩ :: notices)).move? (.act .liveness) =
      some (announcing base p requests replication (orders ++ [set]) notices) := by
  simp [move?,act,actLiveness,join,announcing,room]

/-- Signals pile up while the liveness task does not read them. -/
theorem reaches_typed (alive : Bool) (begun : start.Reaches (typing base [] [])) :
    start.Reaches (typing base [] (List.replicate base.capacity ⟨base.board.self,alive⟩)) := by
  refine reaches_replicate (typing base [] ·) (fun signals free before => ?_) begun (Nat.le_refl base.capacity)
  exact .next (.next before (move?_line base)) (move?_typed base free)

/-- The controller tells the contrary of what was handed on last. -/
theorem reaches_notices (last : LastTold base.board.self alive p) (roomy : 0 < base.capacity)
    (before : start.Reaches (announcing base p requests replication orders [])) :
    ∃ q set, LastTold base.board.self (!alive) q ∧
      start.Reaches (announcing base q requests replication orders (Liveness.notices subscribers (some set))) := by
  obtain ⟨q,set,reacts,next⟩ := last.flips base.now
  let busy := announcing base p requests replication orders []
  have typed : start.Reaches (typing busy [] [⟨base.board.self,!alive⟩]) :=
    .next (.next before (move?_line busy)) (move?_typed busy roomy)
  exact ⟨q,set,next,.next typed (move?_signal base reacts)⟩

/-- Where nobody takes them, as many sets are handed on as the queues hold. -/
theorem reaches_announcing (last : LastTold base.board.self alive p)
    (begun : start.Reaches (announcing base p [] [] [] [])) {count : Nat} (room : count ≤ base.capacity) :
    ∃ q sets alive, sets.length = count ∧ LastTold base.board.self alive q ∧
      start.Reaches (announcing base q sets sets sets []) := by
  induction count with
  | zero => exact ⟨p,[],alive,rfl,last,begun⟩
  | succ count ih =>
    obtain ⟨q,sets,alive,length,last,before⟩ := ih (Nat.le_of_succ_le room)
    have free : sets.length < base.capacity := length ▸ room
    obtain ⟨r,set,next,told⟩ := reaches_notices base last (Nat.zero_lt_of_lt free) before
    refine ⟨r,sets ++ [set],!alive,by simp [length],next,?_⟩
    exact .next (.next (.next told (move?_requests base free)) (move?_replication base free)) (move?_orders base free)

end

/-- A membership is no news to a board without calls. -/
theorem react_membership_new (self : PeerId) (alive : PeerSet) :
    Requests.react (.new self) (.membership alive) = (((CallBoard.new self).setAlive alive).1,[]) := by
  have nothing : (CallBoard.new self).released alive = [] := by
    refine List.eq_nil_iff_forall_not_mem.mpr fun call member => ?_
    have due := (CallBoard.mem_released _ alive call).mp member
    rw [CallBoard.cycle_new] at due
    exact absurd due.1 (by decide)
  have silent : ((CallBoard.new self).setAlive alive).2 = [] := by
    rw [CallBoard.beliefs_setAlive,nothing]
    exact ite_self _
  show (((CallBoard.new self).setAlive alive).1,((CallBoard.new self).setAlive alive).2.flatMap _) = _
  rw [silent]
  rfl

/-- The replication task first tells the liveness task of a snapshot. -/
theorem nextQueue?_inbound {h : Host} {m : Broadcast} (other : m.source ≠ h.replication.replica.self) :
    (h.onReplication (.inbound m)).nextQueue? .replication = some .signals := by
  simp [nextQueue?,onReplication,Replication.react,Replica.absorb,other,Replication.Action.queue]

/-- While the liveness task waits for the replication task, the signals are not read, and the replication task
    has one more with the next snapshot. -/
theorem reaches_signals_full {base : Host} (roomy : 0 < base.capacity) (fresh : base.replication = .new self n)
    (tells : base.nextQueue? .liveness = some .replicationMembers)
    (full : base.capacity ≤ base.queues.size .replicationMembers)
    (begun : start.Reaches (typing (exchanging base [] [] [] []) [] [])) :
    ∃ h, start.Reaches h ∧ h.WaitsFor .replication .liveness ∧ h.WaitsFor .liveness .replication := by
  obtain ⟨bytes,m,reads,other⟩ := exists_foreign self
  have typed := reaches_typed _ true begun
  let busy := typing base [] (List.replicate base.capacity ⟨base.board.self,true⟩)
  have room : ([] : List Broadcast).length < busy.capacity := roomy
  have heard : start.Reaches (exchanging busy [] [m] [] []) :=
    .next (.next typed (move?_datagram busy reads)) (move?_hand busy room)
  have taken : (exchanging busy [] [m] [] []).move? (.take .inbound) =
      some ((exchanging busy [] [] [] []).onReplication (.inbound m)) := by
    simp [move?,isWaiting,takeFrom,exchanging,busy,typing,QueueName.reader,fresh,Replication.new]
  refine ⟨_,.next heard taken,⟨.signals,?_,?_,rfl⟩,⟨.replicationMembers,tells,full,rfl⟩⟩
  · refine nextQueue?_inbound ?_
    show m.source ≠ base.replication.replica.self
    rw [fresh]
    exact other
  · show base.capacity ≤ (List.replicate base.capacity (⟨base.board.self,true⟩ : Signal)).length
    rw [List.length_replicate]

/-- The controller fails and recovers so often that neither the sets of living peers nor the signals fit into
    their queues. -/
theorem reaches_liveness_wait (roomy : 0 < capacity) :
    ∃ h, (new self n timeout capacity transport hasAssigner now).Reaches h ∧
      h.WaitsFor .replication .liveness ∧ h.WaitsFor .liveness .replication := by
  let start := new self n timeout capacity transport hasAssigner now
  have last : LastTold self false (.new self timeout) := ⟨rfl,by simp [Presence.new]⟩
  have begun : start.Reaches (announcing start (.new self timeout) [] [] [] []) := .here
  obtain ⟨p,sets,alive,length,last,full⟩ := reaches_announcing start last begun (Nat.le_refl capacity)
  obtain ⟨q,set,_,told⟩ := reaches_notices start last roomy full
  obtain ⟨first,rest,rfl⟩ : ∃ first rest, sets = first :: rest := List.exists_cons_of_length_pos (length ▸ roomy)
  -- The request task takes one set, so that the liveness task goes on to tell the replication task.
  let base : Host := { start with board := ((CallBoard.new self).setAlive first).1 }
  have taken : (announcing start q (first :: rest) (first :: rest) (first :: rest)
      (Liveness.notices subscribers (some set))).move? (.take .requestMembers) =
        some (announcing base q rest (first :: rest) (first :: rest) (Liveness.notices subscribers (some set))) := by
    have reacts := react_membership_new self first
    simp [move?,isWaiting,takeFrom,announcing,onRequests,QueueName.reader,base,start,new,reacts]
  have free : rest.length < base.capacity := Nat.lt_of_succ_le (Nat.le_of_eq length)
  have blocked := Reaches.next (.next told taken) (move?_requests base free)
  let full := announcing base q (rest ++ [set]) (first :: rest) (first :: rest)
    [⟨"replication",set⟩,⟨"orders",set⟩]
  have fresh : full.replication = .new self n := rfl
  exact reaches_signals_full roomy fresh rfl (Nat.le_of_eq length.symm) blocked

/-! ### All standstills -/

/-- Tasks of a host that wait for one another include the replication task; it waits for the transport task
    or the liveness task, which waits for it in return, directly or through the request task. They do so for
    good, and to either it can come with queues of any capacity. -/
theorem standstills (self : PeerId) (timeout : Duration) (transport : Transport) (hasAssigner : Bool) (now : Instant)
    (served : 0 < n) (roomy : 0 < capacity) :
    let start := new self n timeout capacity transport hasAssigner now
    (∀ h tasks, start.Reaches h → h.CyclicWait tasks →
      .replication ∈ tasks ∧ h.Standstill tasks ∧ ∀ k, h.Reaches k → k.CyclicWait tasks) ∧
    (∃ h, start.Reaches h ∧ h.CyclicWait {.replication,.transport}) ∧
    ∃ h, start.Reaches h ∧ h.CyclicWait {.replication,.liveness} := by
  intro start
  refine ⟨fun h tasks reached cyclic => ?_,?_,?_⟩
  · obtain ⟨d,_,shows⟩ := shows reached
    exact ⟨cyclic.replication shows.handed,cyclic.standstill shows.handed,fun k later => cyclic.lasts later⟩
  · obtain ⟨h,reached,there,back⟩ := reaches_transport_wait served roomy
    exact ⟨h,reached,cyclicWait_pair there back⟩
  · obtain ⟨h,reached,there,back⟩ := reaches_liveness_wait roomy
    exact ⟨h,reached,cyclicWait_pair there back⟩

/-- A host whose queues hold one message each. -/
def narrow : Host := new ⟨1⟩ 4 3000 1 ⟨.connected,1,.zero⟩ false 0

/-- Whatever a narrow host does after a standstill, it stays in it. -/
theorem narrow_stands : (0 : UInt8) < 4 ∧ 0 < 1 ∧ ∃ h, narrow.Reaches h ∧
    h.CyclicWait {.replication,.transport} ∧ h.Standstill {.replication,.transport} ∧
    ∀ k, h.Reaches k → k.CyclicWait {.replication,.transport} := by
  have served : (0 : UInt8) < 4 := by decide
  have roomy : 0 < 1 := by decide
  obtain ⟨all,⟨h,reached,cyclic⟩,_⟩ := standstills ⟨1⟩ 3000 ⟨.connected,1,.zero⟩ false 0 served roomy
  obtain ⟨_,stands,lasts⟩ := all h _ reached cyclic
  exact ⟨served,roomy,h,reached,cyclic,stands,lasts⟩

/-- The host after moves that are made one after the other, if all of them can be made. -/
def follow? (h : Host) (moves : List Move) : Option Host := moves.foldlM move? h

theorem reaches_follow {h k : Host} {moves : List Move} (reached : start.Reaches h) (follows : h.follow? moves = some k) :
    start.Reaches k := by
  induction moves generalizing h with
  | nil =>
    cases follows
    exact reached
  | cons m rest ih =>
    obtain ⟨next,moves,later⟩ := Option.bind_eq_some_iff.mp follows
    exact ih (.next reached moves) later

/-- The car is somewhere; two snapshots come in and two broadcasts fall due, and the replication task sees to
    its broadcasts first. -/
def overrun : List Move :=
  [.line "state 0 idle stop",.act .console,.take .carStates,.act .replication,
    .datagram (Json.write (greeting ⟨2⟩)),.act .transport,.broadcastTick,.act .replication,
    .datagram (Json.write (greeting ⟨2⟩)),.broadcastTick]

theorem overrun_blocks : ∃ h, narrow.follow? overrun = some h ∧ narrow.Reaches h ∧
    h.CyclicWait {.replication,.transport} := by
  have ends : (narrow.follow? overrun).any (fun h =>
      decide (h.WaitsFor .replication .transport ∧ h.WaitsFor .transport .replication)) = true := by
    decide +kernel
  obtain ⟨h,follows,waits⟩ := (Option.any_eq_true _ _).mp ends
  obtain ⟨there,back⟩ := of_decide_eq_true waits
  exact ⟨h,follows,reaches_follow .here follows,cyclicWait_pair there back⟩

end Host
end ElevatorFleet

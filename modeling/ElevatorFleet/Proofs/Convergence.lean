import ElevatorFleet.Proofs.Connected

/-!
# Two controllers converge

Two controllers that know of nobody else agree on every call after three snapshots, one of
the first, one of the second and one more of the first, whatever else passes between them
meanwhile and whatever is lost (`convergence`). With only two alive each completes the quorum
of the other, so the status that one tells decides the status of the other, whoever else
stands in its ledger (`status_hear_other`). In these pairs of statuses the way to agreement
has three steps, and no snapshot leads back on it (`Status.TwoAway`, `Status.OneAway`,
`Status.Settled`). The rows of the registries go the same way.
-/
namespace ElevatorFleet
open Std Tasks

namespace Status

/-- The status of a call at a controller after the only other one has told its own. -/
def learn (own told : Status) : Status :=
  match told with
  | .unknown => own
  | .absent =>
    match own with
    | .confirmed | .unknown => .absent
    | .absent | .unconfirmed => own
  | .unconfirmed => .confirmed
  | .confirmed =>
    match own with
    | .unconfirmed | .unknown => .confirmed
    | .absent | .confirmed => own

/-- Both hold the call alike, and neither waits for witnesses. -/
def Settled (s t : Status) : Prop := s = t ∧ s ≠ .unconfirmed

/-- A snapshot of the first one settles the call. -/
def OneAway (s t : Status) : Prop := Settled s (t.learn s)

/-- A snapshot of the second one and then one of the first one settle the call. -/
def TwoAway (s t : Status) : Prop := OneAway (s.learn t) t

instance (s t : Status) : Decidable (Settled s t) := inferInstanceAs (Decidable (s = t ∧ s ≠ .unconfirmed))

instance (s t : Status) : Decidable (OneAway s t) := inferInstanceAs (Decidable (Settled s (t.learn s)))

instance (s t : Status) : Decidable (TwoAway s t) := inferInstanceAs (Decidable (OneAway (s.learn t) t))

theorem twoAway_learn (s t : Status) : TwoAway s (t.learn s) := by
  cases s <;> cases t <;> decide

theorem OneAway.twoAway {s t : Status} (near : OneAway s t) : TwoAway s t := by
  revert near
  cases s <;> cases t <;> decide

theorem Settled.oneAway {s t : Status} (settled : Settled s t) : OneAway s t := by
  revert settled
  cases s <;> cases t <;> decide

theorem OneAway.learn_back {s t : Status} (near : OneAway s t) : OneAway (s.learn t) t := near.twoAway

theorem Settled.learn {s t : Status} (settled : Settled s t) : Settled s (t.learn s) := settled.oneAway

theorem Settled.learn_back {s t : Status} (settled : Settled s t) : Settled (s.learn t) t := by
  revert settled
  cases s <;> cases t <;> decide

theorem Settled.no_difference {s t : Status} (settled : Settled s t) : differs t s = false := by
  revert settled
  cases s <;> cases t <;> decide

theorem Settled.no_difference_back {s t : Status} (settled : Settled s t) : differs s t = false := by
  revert settled
  cases s <;> cases t <;> decide

end Status

/-- What the only other controller alive tells decides the status. -/
theorem Cycle.status_hear_other {call : Call} {own source : PeerId} {alive : PeerSet} {k : Cycle} (apart : source ≠ own)
    (two : ∀ r ∈ alive, r = own ∨ r = source) (told : Status) :
    (k.hear call own alive source told).status = k.status.learn told := by
  have agreed : call.AgreedBy (k.joined source own) alive := by
    have first : source ∈ k.joined source own := Cycle.mem_joined.mpr (.inr (.inl rfl))
    have second : own ∈ k.joined source own := Cycle.mem_joined.mpr (.inl rfl)
    have most : call.quorum ≤ 2 := by cases call <;> simp [Call.quorum]
    refine ⟨Nat.le_trans most (PeerSet.size_of_two first second apart),fun r member => ?_⟩
    rcases two r member with rfl | rfl
    · exact second
    · exact first
  cases told with
  | unknown => rfl
  | absent => cases held : k.status <;> simp [hear,Status.learn,held]
  | unconfirmed => cases held : k.status <;> simp [hear,Status.learn,held,agreed,closed]
  | confirmed => cases held : k.status <;> simp [hear,Status.learn,held,closed]

namespace Network

/-- One controller sends its snapshot, which reaches the other one at once. -/
def relay (w : Network) (d : PeerId × PeerId) : Network := w.run [.send d.1,.deliver w.sent.length d.2]

/-- Several snapshots pass, each of them up to date; the others are lost. -/
def relays (w : Network) (deliveries : List (PeerId × PeerId)) : Network := deliveries.foldl relay w

/-- The registry of the controller has a row for the cab of the owner. -/
def Lists (w : Network) (peer owner : PeerId) : Prop :=
  ∃ car, w.car? peer = some car ∧ owner ∈ car.replica.registry.cab

/-- Two controllers hold the same of every call, neither waits for witnesses, and nothing that
    passes between them changes that. -/
structure Converged (n : UInt8) (p q : PeerId) (w : Network) : Prop where
  agreed : ∀ call, call.floor < n → ∃ s, s ≠ .unconfirmed ∧ ∀ peer, peer = p ∨ peer = q → ∃ car,
    w.car? peer = some car ∧ car.board.status call = s ∧ car.replica.registry.status call = s ∧
      car.board.ledger.witnesses? call = none
  still : ∀ more, (∀ d ∈ more, d = (p,q) ∨ d = (q,p)) → ∀ peer car, w.car? peer = some car → ∃ after,
    (w.relays more).car? peer = some after ∧ after.board = car.board ∧ after.replica.registry = car.replica.registry

/-- The statuses of every served call at two controllers are so related, and so are the rows
    that their registries have. -/
structure Related (n : UInt8) (members : PeerSet) (p q : PeerId) (holds : Status → Status → Prop)
    (rows : Prop → Prop → Prop) (w : Network) : Prop extends Connected n members w where
  statuses : ∀ call, call.floor < n → ∃ s t, w.status? p call = some s ∧ w.status? q call = some t ∧ holds s t
  owners : ∀ owner, rows (w.Lists p owner) (w.Lists q owner)

/-- No snapshot of either of two controllers breaks the relations. -/
structure Kept (holds : Status → Status → Prop) (rows : Prop → Prop → Prop) : Prop where
  there : ∀ s t, holds s t → holds s (t.learn s)
  back : ∀ s t, holds s t → holds (s.learn t) t
  rowsThere : ∀ a b, rows a b → rows a (a ∨ b)
  rowsBack : ∀ a b, rows a b → rows (b ∨ a) b

theorem Kept.swap {holds : Status → Status → Prop} {rows : Prop → Prop → Prop} (kept : Kept holds rows) :
    Kept (fun s t => holds t s) (fun a b => rows b a) :=
  ⟨fun s t => kept.back t s,fun s t => kept.there t s,fun a b => kept.rowsBack b a,fun a b => kept.rowsThere b a⟩

theorem kept_any : Kept (fun _ _ => True) (fun _ _ => True) :=
  ⟨fun _ _ _ => trivial,fun _ _ _ => trivial,fun _ _ _ => trivial,fun _ _ _ => trivial⟩

theorem kept_twoAway : Kept Status.TwoAway (· → ·) where
  there s t _ := Status.twoAway_learn s t
  back _ _ near := Status.OneAway.twoAway near
  rowsThere _ _ _ := .inl
  rowsBack _ _ sub := fun either => either.elim id sub

theorem kept_oneAway : Kept Status.OneAway (· ↔ ·) where
  there _ _ near := Status.Settled.oneAway near
  back _ _ near := near.learn_back
  rowsThere _ _ same := ⟨.inl,fun either => either.elim id same.mpr⟩
  rowsBack _ _ same := ⟨fun either => either.elim id same.mp,.inl⟩

theorem kept_settled : Kept Status.Settled (· ↔ ·) where
  there _ _ settled := settled.learn
  back _ _ settled := settled.learn_back
  rowsThere := kept_oneAway.rowsThere
  rowsBack := kept_oneAway.rowsBack

variable {n : UInt8} {members : PeerSet} {p q : PeerId} {w : Network}

/-! ### One snapshot -/

theorem Connected.relay (connected : w.Connected n members) (d : PeerId × PeerId) : (w.relay d).Connected n members := by
  refine connected.run fun mv member => ?_
  rcases List.mem_cons.mp member with rfl | last
  · trivial
  · rw [List.mem_singleton.mp last]
    trivial

/-- A snapshot changes its receiver and nobody else. -/
theorem Connected.car_relay (connected : w.Connected n members) {a b : Controller} (sender : w.car? p = some a)
    (receiver : w.car? q = some b) :
    ∃ m, m.source = p ∧ m.registry = a.replica.registry ∧
      ∀ r, (w.relay (p,q)).car? r = if q = r then some (b.receive m w.fleet.now) else w.car? r := by
  obtain ⟨m,outbound,source,registry⟩ := connected.sends sender
  have makes : (w.step (.send p)).event? (.deliver w.sent.length q) = some (q,.receive m) := by
    rw [event?,sent_send sender outbound]
    rfl
  refine ⟨m,source,registry,fun r => ?_⟩
  have cars : (w.relay (p,q)).car? r = _ := car?_event makes r
  have same (peer : PeerId) : (w.step (.send p)).car? peer = w.car? peer := rfl
  rw [cars,same]
  by_cases here : q = r
  · rw [if_pos here,if_pos here,← here,receiver]
    rfl
  · rw [if_neg here,if_neg here]

theorem Connected.status_relay (connected : w.Connected n members) (two : ∀ r ∈ members, r = p ∨ r = q) (apart : p ≠ q)
    {call : Call} (served : call.floor < n) {s t : Status} (told : w.status? p call = some s)
    (own : w.status? q call = some t) :
    (w.relay (p,q)).status? p call = some s ∧ (w.relay (p,q)).status? q call = some (t.learn s) := by
  obtain ⟨a,sender,rfl⟩ := status?_eq_some.mp told
  obtain ⟨b,receiver,rfl⟩ := status?_eq_some.mp own
  obtain ⟨m,source,registry,cars⟩ := connected.car_relay sender receiver
  have reached := connected.reached q b receiver
  constructor
  · rw [status?,cars,if_neg (Ne.symm apart)]
    exact told
  · have cycles := Controller.cycle_receive reached.mirrors m w.fleet.now call
    have cell : m.registry.status call = a.board.status call := by
      rw [registry]
      exact (connected.reached p a sender).mirrors.cell call served
    rw [reached.board.self,connected.alive q b receiver,source,cell,if_pos ⟨apart,served⟩] at cycles
    have others : ∀ r ∈ members, r = q ∨ r = p := fun r member => (two r member).symm
    rw [status?,cars,if_pos rfl,Option.map_some,← CallBoard.cycle_status,cycles,Cycle.status_hear_other apart others]
    rfl

theorem Connected.lists_relay (connected : w.Connected n members) (apart : p ≠ q) {a b : Controller}
    (sender : w.car? p = some a) (receiver : w.car? q = some b) (owner : PeerId) :
    ((w.relay (p,q)).Lists p owner ↔ w.Lists p owner) ∧
      ((w.relay (p,q)).Lists q owner ↔ w.Lists p owner ∨ w.Lists q owner) := by
  obtain ⟨m,source,registry,cars⟩ := connected.car_relay sender receiver
  have reached := connected.reached q b receiver
  have other : m.source ≠ b.replica.self := by
    rw [source,reached.replica_self]
    exact apart
  have known : p ∈ a.replica.registry.cab := (connected.reached p a sender).own_row
  have rows := Controller.mem_cab_receive reached.mirrors other w.fleet.now owner
  rw [source,registry] at rows
  constructor
  · rw [Lists,cars,if_neg (Ne.symm apart),Lists]
  · simp only [Lists,cars,if_pos,Option.some.injEq,exists_eq_left',sender,receiver,rows]
    constructor
    · rintro (same | theirs | mine)
      · exact .inl (same ▸ known)
      · exact .inl theirs
      · exact .inr mine
    · exact .inr

/-! ### Stages -/

variable {holds holds' : Status → Status → Prop} {rows rows' : Prop → Prop → Prop}

theorem Related.swap (related : w.Related n members p q holds rows) :
    w.Related n members q p (fun s t => holds t s) (fun a b => rows b a) := by
  refine ⟨related.toConnected,fun call served => ?_,related.owners⟩
  obtain ⟨s,t,first,second,held⟩ := related.statuses call served
  exact ⟨t,s,second,first,held⟩

theorem Related.relay (related : w.Related n members p q holds rows) (all : ∀ r, r ∈ members ↔ r = p ∨ r = q)
    (apart : p ≠ q) (turns : ∀ s t, holds s t → holds' s (t.learn s)) (rowsTurn : ∀ a b, rows a b → rows' a (a ∨ b)) :
    (w.relay (p,q)).Related n members p q holds' rows' := by
  obtain ⟨a,sender⟩ := related.car ((all p).mpr (.inl rfl))
  obtain ⟨b,receiver⟩ := related.car ((all q).mpr (.inr rfl))
  refine ⟨related.toConnected.relay (p,q),fun call served => ?_,fun owner => ?_⟩
  · obtain ⟨s,t,first,second,held⟩ := related.statuses call served
    obtain ⟨told,learned⟩ := related.status_relay (fun r => (all r).mp) apart served first second
    exact ⟨s,t.learn s,told,learned,turns s t held⟩
  · obtain ⟨same,grown⟩ := related.lists_relay apart sender receiver owner
    rw [same,grown]
    exact rowsTurn _ _ (related.owners owner)

theorem Related.keep (kept : Kept holds rows) (related : w.Related n members p q holds rows)
    (all : ∀ r, r ∈ members ↔ r = p ∨ r = q) (apart : p ≠ q) {d : PeerId × PeerId} (between : d = (p,q) ∨ d = (q,p)) :
    (w.relay d).Related n members p q holds rows := by
  rcases between with rfl | rfl
  · exact related.relay all apart kept.there kept.rowsThere
  · have others : ∀ r, r ∈ members ↔ r = q ∨ r = p := fun r => (all r).trans or_comm
    exact (related.swap.relay others (Ne.symm apart) (fun s t => kept.back t s) (fun a b => kept.rowsBack b a)).swap

theorem Related.keeps (kept : Kept holds rows) (all : ∀ r, r ∈ members ↔ r = p ∨ r = q) (apart : p ≠ q)
    {deliveries : List (PeerId × PeerId)} (related : w.Related n members p q holds rows)
    (between : ∀ d ∈ deliveries, d = (p,q) ∨ d = (q,p)) : (w.relays deliveries).Related n members p q holds rows := by
  induction deliveries generalizing w with
  | nil => exact related
  | cons d rest ih =>
    exact ih (related.keep kept all apart (between d List.mem_cons_self)) fun d' member => between d' (List.mem_cons_of_mem _ member)

theorem Related.turn (kept : Kept holds rows) (kept' : Kept holds' rows')
    (turns : ∀ s t, holds s t → holds' s (t.learn s)) (rowsTurn : ∀ a b, rows a b → rows' a (a ∨ b))
    (all : ∀ r, r ∈ members ↔ r = p ∨ r = q) (apart : p ≠ q) {deliveries : List (PeerId × PeerId)}
    (related : w.Related n members p q holds rows) (between : ∀ d ∈ deliveries, d = (p,q) ∨ d = (q,p))
    (passes : (p,q) ∈ deliveries) : (w.relays deliveries).Related n members p q holds' rows' := by
  obtain ⟨early,late,rfl⟩ := List.append_of_mem passes
  have before : (w.relays early).Related n members p q holds rows :=
    related.keeps kept all apart fun d member => between d (List.mem_append_left _ member)
  have next := before.relay all apart turns rowsTurn
  rw [relays,List.foldl_append,List.foldl_cons]
  refine next.keeps kept' all apart fun d member => between d ?_
  exact List.mem_append_right _ (List.mem_cons_of_mem _ member)

/-! ### The end -/

theorem Related.mono (related : w.Related n members p q holds rows) (weaker : ∀ s t, holds s t → holds' s t)
    (fewer : ∀ a b, rows a b → rows' a b) : w.Related n members p q holds' rows' := by
  refine ⟨related.toConnected,fun call served => ?_,fun owner => fewer _ _ (related.owners owner)⟩
  obtain ⟨s,t,first,second,held⟩ := related.statuses call served
  exact ⟨s,t,first,second,weaker s t held⟩

/-- A snapshot in which nothing differs and which names no new owner changes nothing. -/
theorem Related.still_relay (same : w.Related n members p q (fun s t => Status.differs t s = false) (· → ·))
    (all : ∀ r, r ∈ members ↔ r = p ∨ r = q) (apart : p ≠ q) {peer : PeerId} {car : Controller}
    (found : w.car? peer = some car) :
    ∃ after, (w.relay (p,q)).car? peer = some after ∧ after.board = car.board ∧
      after.replica.registry = car.replica.registry := by
  obtain ⟨a,sender⟩ := same.car ((all p).mpr (.inl rfl))
  obtain ⟨b,receiver⟩ := same.car ((all q).mpr (.inr rfl))
  obtain ⟨m,source,registry,cars⟩ := same.car_relay sender receiver
  rw [cars]
  by_cases here : q = peer
  case neg =>
    rw [if_neg here]
    exact ⟨car,found,rfl,rfl⟩
  subst here
  cases found.symm.trans receiver
  have reached := same.reached q car found
  have other : m.source ≠ car.replica.self := by
    rw [source,reached.replica_self]
    exact apart
  have noReports : car.reports m = [] := by
    refine List.eq_nil_iff_forall_not_mem.mpr fun r reported => ?_
    obtain ⟨_,_,served,_,differ⟩ := (Controller.mem_reports reached.mirrors).mp reported
    obtain ⟨s,t,first,second,alike⟩ := same.statuses r.belief.call served
    rw [status?_eq sender] at first
    rw [status?_eq found] at second
    cases first
    cases second
    rw [registry,(same.reached p a sender).mirrors.cell _ served,alike] at differ
    cases differ
  have listed (owner : PeerId) : owner ∈ a.replica.registry.cab → owner ∈ car.replica.registry.cab := by
    intro theirs
    obtain ⟨_,here,mine⟩ := same.owners owner ⟨a,sender,theirs⟩
    cases found.symm.trans here
    exact mine
  have known : m.source ∈ car.replica.registry.cab := source ▸ listed p (same.reached p a sender).own_row
  rw [if_pos rfl,Controller.receive_other other,noReports]
  exact ⟨_,rfl,rfl,Registry.enroll_known known (registry ▸ listed)⟩

theorem Related.still (settled : w.Related n members p q Status.Settled (· ↔ ·))
    (all : ∀ r, r ∈ members ↔ r = p ∨ r = q) (apart : p ≠ q) {more : List (PeerId × PeerId)}
    (between : ∀ d ∈ more, d = (p,q) ∨ d = (q,p)) {peer : PeerId} {car : Controller} (found : w.car? peer = some car) :
    ∃ after, (w.relays more).car? peer = some after ∧ after.board = car.board ∧
      after.replica.registry = car.replica.registry := by
  induction more generalizing w car with
  | nil => exact ⟨car,found,rfl,rfl⟩
  | cons d rest ih =>
    have first := between d List.mem_cons_self
    have one : ∃ after, (w.relay d).car? peer = some after ∧ after.board = car.board ∧
        after.replica.registry = car.replica.registry := by
      rcases first with rfl | rfl
      · have same := settled.mono (fun _ _ alike => Status.Settled.no_difference alike) (fun _ _ => Iff.mp)
        exact same.still_relay all apart found
      · have same := settled.swap.mono (fun _ _ alike => Status.Settled.no_difference_back alike) (fun _ _ => Iff.mpr)
        exact same.still_relay (fun r => (all r).trans or_comm) (Ne.symm apart) found
    obtain ⟨next,foundNext,board,registry⟩ := one
    obtain ⟨after,foundAfter,boardAfter,registryAfter⟩ :=
      ih (settled.keep kept_settled all apart first) (fun d' member => between d' (List.mem_cons_of_mem _ member)) foundNext
    exact ⟨after,foundAfter,boardAfter.trans board,registryAfter.trans registry⟩

theorem Related.converged (settled : w.Related n members p q Status.Settled (· ↔ ·))
    (all : ∀ r, r ∈ members ↔ r = p ∨ r = q) (apart : p ≠ q) : w.Converged n p q := by
  refine ⟨fun call served => ?_,fun more between peer car found => settled.still all apart between found⟩
  obtain ⟨s,t,first,second,rfl,calm⟩ := settled.statuses call served
  refine ⟨s,calm,fun peer either => ?_⟩
  have held : w.status? peer call = some s := by
    rcases either with rfl | rfl
    · exact first
    · exact second
  obtain ⟨car,found,same⟩ := status?_eq_some.mp held
  have reached := settled.reached peer car found
  refine ⟨car,found,same,(reached.mirrors.cell call served).trans same,(reached.board.sound call).shut ?_⟩
  rw [CallBoard.cycle_status,same]
  exact calm

/-- Two controllers that know of nobody else, whatever they hold and have in their ledgers,
    agree for good once a snapshot of one has passed, then one of the other, and then another
    one of the first. -/
theorem convergence (connected : w.Connected n (.of [p,q])) (apart : p ≠ q) {deliveries : List (PeerId × PeerId)}
    (between : ∀ d ∈ deliveries, d = (p,q) ∨ d = (q,p)) (thrice : [(p,q),(q,p),(p,q)].Sublist deliveries) :
    (w.relays deliveries).Converged n p q := by
  have all : ∀ r, r ∈ PeerSet.of [p,q] ↔ r = p ∨ r = q := by
    intro r
    rw [PeerSet.mem_of]
    simp
  obtain ⟨first,others,rfl,one,later⟩ := List.cons_sublist_iff.mp thrice
  obtain ⟨second,third,rfl,two,last⟩ := List.cons_sublist_iff.mp later
  have inFirst := fun d member => between d (List.mem_append_left _ member)
  have inSecond := fun d member => between d (List.mem_append_right _ (List.mem_append_left _ member))
  have inThird := fun d member => between d (List.mem_append_right _ (List.mem_append_right _ member))
  have start : w.Related n (.of [p,q]) p q (fun _ _ => True) (fun _ _ => True) := by
    refine ⟨connected,fun call served => ?_,fun _ => trivial⟩
    obtain ⟨a,sender⟩ := connected.car ((all p).mpr (.inl rfl))
    obtain ⟨b,receiver⟩ := connected.car ((all q).mpr (.inr rfl))
    exact ⟨_,_,status?_eq sender call,status?_eq receiver call,trivial⟩
  have twoAway := start.turn kept_any kept_twoAway (fun s t _ => Status.twoAway_learn s t) (fun _ _ _ => .inl)
    all apart inFirst one
  have oneAway := (twoAway.swap.turn kept_twoAway.swap kept_oneAway.swap (fun _ _ near => near)
    (fun _ _ sub => ⟨fun either => either.elim id sub,.inl⟩) (fun r => (all r).trans or_comm) (Ne.symm apart)
    (fun d member => (inSecond d member).symm) two).swap
  have settled := oneAway.turn kept_oneAway kept_settled (fun _ _ near => near)
    (fun _ _ same => ⟨.inl,fun either => either.elim id same.mpr⟩) all apart inThird (List.singleton_sublist.mp last)
  rw [relays,List.foldl_append,List.foldl_append]
  exact settled.converged all apart

/-- The first controller is pressed, and the second one is pressed in its cab. -/
def pressedBoth : Network := linked.run [.press ⟨1⟩ (.hall 1 .up),.press ⟨2⟩ (.cab 0 ⟨2⟩)]

theorem pressedBoth_converges : pressedBoth.status? ⟨1⟩ (.hall 1 .up) = some .unconfirmed ∧
    (pressedBoth.relays [(⟨1⟩,⟨2⟩),(⟨1⟩,⟨2⟩),(⟨2⟩,⟨1⟩),(⟨1⟩,⟨2⟩)]).Converged 4 ⟨1⟩ ⟨2⟩ := by
  have connected : pressedBoth.Connected 4 (.of [⟨1⟩,⟨2⟩]) := linked_connected.run (by decide)
  exact ⟨by decide +kernel,convergence connected (by decide) (by decide) (by decide)⟩

end Network
end ElevatorFleet

import Mathlib.Data.List.Induction
import ElevatorFleet.Proofs.Membership

/-!
# Fresh peers

What a monitor remembers of a peer depends on the last signal about it alone (`lastSeen_heard`), and a bad
signal, dated back, never counts as fresh. So a peer is fresh if the last signal about it was good and is
younger than the timeout (`mem_fresh_heard`). The board learns of every other membership with the next
poll, and from then on its calls wait for fresh peers only (`waits_for_fresh`).
-/
namespace ElevatorFleet
open Std

namespace Presence
variable {self peer : PeerId} {timeout : Duration} {now : Instant} {signals : List (Instant × Signal)}

/-- The monitor after some signals, each with the time at which it comes. -/
def heard (p : Presence) (signals : List (Instant × Signal)) : Presence :=
  signals.foldl (fun p s => p.observe s.2 s.1) p

/-- The last of the signals that is about `peer`. -/
def lastSignal (peer : PeerId) (signals : List (Instant × Signal)) : Option (Instant × Signal) :=
  (signals.filter fun s => s.2.peer = peer).getLast?

/-- When the peer of a signal was last seen, as the monitor sees it. -/
def dated (timeout : Duration) (s : Instant × Signal) : Option Instant :=
  if s.2.alive then some s.1 else before? s.1 timeout

theorem lastSignal_snoc (peer : PeerId) (signals : List (Instant × Signal)) (s : Instant × Signal) :
    lastSignal peer (signals ++ [s]) = if s.2.peer = peer then some s else lastSignal peer signals := by
  by_cases about : s.2.peer = peer
  · simp [lastSignal,about]
  · simp [lastSignal,about]

theorem lastSignal_mem {s : Instant × Signal} (last : lastSignal peer signals = some s) :
    s ∈ signals ∧ s.2.peer = peer := by
  simpa using List.mem_of_getLast? last

theorem lastSeen_observe (p : Presence) (s : Signal) (now : Instant) (peer : PeerId) :
    (p.observe s now).lastSeen[peer]? = if s.peer = peer then dated p.timeout (now,s) else p.lastSeen[peer]? := by
  by_cases about : s.peer = peer
  · subst about
    cases good : s.alive with
    | true => simp [observe,dated,good]
    | false => cases dates : before? now p.timeout <;> simp [observe,dated,good,dates]
  · cases good : s.alive with
    | true => simp [observe,good,about,ExtTreeMap.getElem?_insert]
    | false =>
      cases dates : before? now p.timeout with
      | none => simp [observe,good,dates,about,ExtTreeMap.getElem?_erase]
      | some expired => simp [observe,good,dates,about,ExtTreeMap.getElem?_insert]

theorem heard_snoc (p : Presence) (signals : List (Instant × Signal)) (s : Instant × Signal) :
    p.heard (signals ++ [s]) = (p.heard signals).observe s.2 s.1 := by
  simp [heard]

theorem timeout_heard (p : Presence) (signals : List (Instant × Signal)) : (p.heard signals).timeout = p.timeout := by
  induction signals using List.reverseRecOn with
  | nil => rfl
  | append_singleton past s ih => rw [heard_snoc]; exact ih

theorem heard_published (p : Presence) (alive : PeerSet) (signals : List (Instant × Signal)) :
    { p with published := alive }.heard signals = { p.heard signals with published := alive } := by
  induction signals generalizing p with
  | nil => rfl
  | cons s rest ih => exact ih (p.observe s.2 s.1)

/-- Only the last signal about a peer counts. -/
theorem lastSeen_heard (self : PeerId) (timeout : Duration) (signals : List (Instant × Signal)) (peer : PeerId) :
    ((new self timeout).heard signals).lastSeen[peer]? = (lastSignal peer signals).bind (dated timeout) := by
  induction signals using List.reverseRecOn with
  | nil => simp [heard,new,lastSignal]
  | append_singleton past s ih =>
    rw [heard_snoc,lastSeen_observe,timeout_heard,lastSignal_snoc,ih]
    split
    · rfl
    · rfl

theorem mem_fresh {p : Presence} : peer ∈ p.fresh now ↔ ∃ seen, p.lastSeen[peer]? = some seen ∧ now - seen < p.timeout := by
  simp only [fresh,PeerSet.mem_of,List.mem_filterMap,Prod.exists,ExtTreeMap.mem_toList_iff_getElem?_eq_some]
  constructor
  · rintro ⟨other,seen,entry,kept⟩
    split at kept
    · rename_i young
      cases kept
      exact ⟨seen,entry,young⟩
    · cases kept
  · rintro ⟨seen,entry,young⟩
    exact ⟨peer,seen,entry,by simp [young]⟩

theorem before?_eq_some {now ago seen : Nat} : before? now ago = some seen ↔ seen + ago = now := by
  rw [before?,Option.ite_none_right_eq_some,Option.some.injEq]
  constructor
  · rintro ⟨reaches,rfl⟩
    exact Nat.sub_add_cancel reaches
  · rintro rfl
    exact ⟨Nat.le_add_left ..,Nat.add_sub_cancel ..⟩

/-- A bad signal has run out by the time it comes, however the clock dates it. -/
theorem not_young {time seen now timeout : Nat} (past : time ≤ now) (dates : before? time timeout = some seen) :
    ¬ now - seen < timeout := by
  have := before?_eq_some.mp dates
  omega

/-- A peer is fresh exactly if the last signal about it was good and is younger than the timeout. -/
theorem mem_fresh_heard (past : ∀ s ∈ signals, s.1 ≤ now) : peer ∈ ((new self timeout).heard signals).fresh now ↔
    ∃ time, lastSignal peer signals = some (time,⟨peer,true⟩) ∧ now - time < timeout := by
  rw [mem_fresh,timeout_heard,lastSeen_heard]
  constructor
  · rintro ⟨seen,entry,young⟩
    obtain ⟨⟨time,⟨about,alive⟩⟩,last,dates⟩ := Option.bind_eq_some_iff.mp entry
    obtain ⟨member,rfl⟩ := lastSignal_mem last
    cases alive with
    | true =>
      cases dates
      exact ⟨_,last,young⟩
    | false => exact absurd young (not_young (past _ member) dates)
  · rintro ⟨time,last,young⟩
    exact ⟨time,by simp [last,dated],young⟩

theorem mem_aliveAt_other {p : Presence} (other : peer ≠ p.self) : peer ∈ p.aliveAt now ↔ peer ∈ p.fresh now := by
  rw [aliveAt]
  split
  · rw [ExtTreeSet.mem_erase]
    exact and_iff_right fun same => other (LawfulEqCmp.eq_of_compare same).symm
  · rw [PeerSet.mem_insert]
    exact or_iff_right other

end Presence

namespace Controller
variable {self : PeerId} {c : Controller} {now : Instant}

/-- The times of a run do not go back. -/
def Ordered (run : List (Instant × Input)) : Prop := run.Pairwise fun first second => first.1 ≤ second.1

instance (run : List (Instant × Input)) : Decidable (Ordered run) :=
  inferInstanceAs (Decidable (run.Pairwise fun first second => first.1 ≤ second.1))

/-- The signals of a run. -/
def signals (run : List (Instant × Input)) : List (Instant × Signal) :=
  run.filterMap fun (now,input) => match input with
    | .signal s => some (now,s)
    | _ => none

theorem mem_signals {run : List (Instant × Input)} {time : Instant} {s : Signal} :
    (time,s) ∈ signals run ↔ (time,.signal s) ∈ run := by
  simp only [signals,List.mem_filterMap,Prod.exists]
  constructor
  · rintro ⟨now,input,member,same⟩
    cases input with
    | signal s => cases same; exact member
    | report _ | absorb _ | car _ | neighbor _ | poll => cases same
  · intro member
    exact ⟨time,.signal s,member,rfl⟩

/-- The monitor hears the signals of a run and nothing else. -/
theorem presence_take (c : Controller) (now : Instant) (input : Input) : (c.take now input).presence =
    { c.presence.heard (signals [(now,input)]) with published := (c.take now input).presence.published } := by
  cases input with
  | poll =>
    show (c.poll now).presence = { c.presence with published := (c.poll now).presence.published }
    rw [presence_poll]
  | car state => rw [take,setCar]; split <;> rfl
  | signal _ | report _ | absorb _ | neighbor _ => rfl

theorem presence_after (c : Controller) (run : List (Instant × Input)) : (c.after run).presence =
    { c.presence.heard (signals run) with published := (c.after run).presence.published } := by
  induction run generalizing c with
  | nil => rfl
  | cons head rest ih =>
    have split : c.presence.heard (signals (head :: rest)) = (c.presence.heard (signals [head])).heard (signals rest) := by
      rw [show signals (head :: rest) = signals [head] ++ signals rest from List.filterMap_append (l := [head])]
      exact List.foldl_append
    have later := ih (c.take head.1 head.2)
    rw [presence_take,Presence.heard_published] at later
    rw [split]
    exact later

theorem board_take (reached : c.board.Reached self) (now : Instant) (input : Input) :
    (c.take now input).board.Reached self := by
  cases input with
  | report r => exact reached.next (.report r)
  | poll =>
    show (c.react now .poll).board.Reached self
    rw [board_react]
    exact reached.after _
  | car state => rw [take,setCar]; split <;> exact reached
  | signal _ | absorb _ | neighbor _ => exact reached

theorem board_after (reached : c.board.Reached self) (run : List (Instant × Input)) :
    (c.after run).board.Reached self := by
  induction run generalizing c with
  | nil => exact reached
  | cons head rest ih => exact ih (board_take reached head.1 head.2)

/-! ### What a call waits for -/

/-- Witnesses that are no quorum are too few or miss somebody alive; with the controller itself
    among them only a hall call can have too few. -/
theorem missing_witness {call : Call} {peers alive : PeerSet} (own : self ∈ peers) (waits : ¬ call.AgreedBy peers alive) :
    (call.isHall ∧ ∀ p, p ∈ peers ↔ p = self) ∨ ∃ p ∈ alive, p ∉ peers := by
  by_cases covered : ∀ p ∈ alive, p ∈ peers
  · have few : peers.size < call.quorum := by
      by_contra many
      exact waits ⟨by omega,covered⟩
    have some_ : 0 < peers.size := by
      rw [← ExtTreeSet.length_toList]
      exact List.length_pos_of_mem (ExtTreeSet.mem_toList.mpr own)
    cases call with
    | cab floor owner => simp only [Call.quorum] at few; omega
    | hall floor direction =>
      refine .inl ⟨rfl,fun p => ⟨fun member => ?_,fun same => same ▸ own⟩⟩
      by_contra apart
      have two := PeerSet.size_of_two member own apart
      simp only [Call.quorum] at few
      omega
  · push Not at covered
    exact .inr covered

/-- Right after a poll, a call that is still unconfirmed is a hall call that nobody but the controller
    itself has witnessed, or it waits for another peer, and the last signal about that peer was good and
    is younger than the timeout. -/
theorem waits_for_fresh (self : PeerId) (n : UInt8) (timeout : Duration) (run : List (Instant × Input)) (now : Instant)
    (ordered : Ordered (run ++ [(now,.poll)])) (call : Call) :
    let c := (new self n timeout).after (run ++ [(now,.poll)])
    c.board.status call = .unconfirmed →
      (call.isHall ∧ ∀ p, p ∈ c.board.ledger.witnesses call ↔ p = self) ∨
      ∃ peer time, peer ≠ self ∧ peer ∉ c.board.ledger.witnesses call ∧
        Presence.lastSignal peer (signals run) = some (time,⟨peer,true⟩) ∧ now - time < timeout := by
  intro c waits
  have reached : c.board.Reached self := board_after .new _
  obtain ⟨peers,entry⟩ := Option.isSome_iff_exists.mp ((reached.sound call).isOpen.mpr waits)
  have witnesses : c.board.ledger.witnesses call = peers := by
    rw [CallBoard.witnesses_eq,entry]
    rfl
  have own : self ∈ peers := reached.self ▸ (reached.sound call).witnessed peers entry
  rw [witnesses]
  rcases missing_witness own ((reached.sound call).waiting peers entry) with alone | ⟨peer,member,missing⟩
  · exact .inl alone
  have other : peer ≠ self := fun same => missing (same ▸ own)
  -- A board that has learned of no membership counts on itself alone, and so misses nobody.
  have polled : c = ((new self n timeout).after run).poll now := after_append ..
  have handed : c.presence.aliveAt now = c.presence.published := by
    rw [polled]
    exact aliveAt_poll _ now
  have start : (new self n timeout).Holds (.of [self]) := ⟨rfl,rfl⟩
  obtain ⟨current,unheard⟩ := holds_after rfl start (run ++ [(now,.poll)])
  by_cases found : (new self n timeout).FindsSomebody (run ++ [(now,.poll)])
  · have alive : peer ∈ c.presence.aliveAt now := by
      rw [handed,← (current found).board]
      exact member
    have wired : c.Wired self := (wired_new self n timeout).after _
    have fresh := (Presence.mem_aliveAt_other (wired.monitor ▸ other)).mp alive
    have past : ∀ s ∈ signals run, s.1 ≤ now := by
      intro s heard
      exact (List.pairwise_append.mp ordered).2.2 _ (mem_signals.mp heard) _ List.mem_cons_self
    have heard : signals (run ++ [(now,.poll)]) = signals run := by simp [signals]
    rw [show c.presence = _ from presence_after _ _,heard] at fresh
    obtain ⟨time,last,young⟩ := (Presence.mem_fresh_heard past).mp fresh
    exact .inr ⟨peer,time,other,missing,last,young⟩
  · rw [(unheard found).1.board] at member
    exact absurd (by simpa using member) other

/-- The second of three controllers reports its failure after it has witnessed a press; the third one
    lives, and has not heard of the press. -/
def outage : List (Instant × Input) :=
  [(0,.signal ⟨⟨2⟩,true⟩),(600,.signal ⟨⟨3⟩,true⟩),(600,.poll),(700,.report (.of ⟨1⟩ (.hall 1 .up) .unconfirmed)),
    (800,.report (.of ⟨2⟩ (.hall 1 .up) .unconfirmed)),(900,.signal ⟨⟨2⟩,false⟩)]

/-- The press waits for the third controller, and only until its signal has run out. -/
theorem outage_waits :
    let c := (new ⟨1⟩ 4 1000).after (outage ++ [(1500,.poll)])
    Ordered (outage ++ [(1500,.poll)]) ∧ c.board.status (.hall 1 .up) = .unconfirmed ∧
      ¬ (∀ p, p ∈ c.board.ledger.witnesses (.hall 1 .up) ↔ p = ⟨1⟩) ∧
      (∃ peer time, peer ≠ ⟨1⟩ ∧ peer ∉ c.board.ledger.witnesses (.hall 1 .up) ∧
        Presence.lastSignal peer (signals outage) = some (time,⟨peer,true⟩) ∧ 1500 - time < 1000) ∧
      ((new ⟨1⟩ 4 1000).after (outage ++ [(1600,.poll)])).board.status (.hall 1 .up) = .confirmed := by
  have ordered : Ordered (outage ++ [(1500,.poll)]) := by decide
  have waits : ((new ⟨1⟩ 4 1000).after (outage ++ [(1500,.poll)])).board.status (.hall 1 .up) = .unconfirmed := by
    decide +kernel
  have both : ¬ ∀ p, p ∈ ((new ⟨1⟩ 4 1000).after (outage ++ [(1500,.poll)])).board.ledger.witnesses (.hall 1 .up) ↔
      p = ⟨1⟩ := by
    intro alone
    have second := (alone ⟨2⟩).mp (by decide +kernel)
    cases second
  rcases waits_for_fresh ⟨1⟩ 4 1000 outage 1500 ordered (.hall 1 .up) waits with ⟨_,alone⟩ | living
  · exact absurd alone both
  · exact ⟨ordered,waits,both,living,by decide +kernel⟩

end Controller
end ElevatorFleet

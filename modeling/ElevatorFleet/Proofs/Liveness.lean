import Mathlib.Data.List.Chain
import ElevatorFleet.Tasks.Liveness
import ElevatorFleet.Proofs.Freshness

/-!
# Living peers

What a monitor answers depends on the last signal about each peer alone, whatever it has been asked in the
meantime and however it dates a bad signal (`mem_aliveAt_iff`). The liveness task hands a set of living peers
on only when it differs from the one before, so every subscriber hears of every change once, and whenever the
task has looked who is alive, what was last handed on is true (`subscribers_told`).
-/
namespace ElevatorFleet
open Std

namespace Presence
variable {self peer : PeerId} {timeout : Duration} {now : Instant} {run : List (Instant × Input)}

/-- What a monitor is given to do. -/
inductive Input where
  | signal (s : Signal)
  | poll
deriving DecidableEq

/-- The monitor after an input at `now`. -/
def take (p : Presence) (now : Instant) : Input → Presence
  | .signal s => p.observe s now
  | .poll => (p.poll now).1

/-- The monitor after a run of inputs, each with its instant. -/
def after (p : Presence) (run : List (Instant × Input)) : Presence :=
  run.foldl (fun p input => p.take input.1 input.2) p

/-- The signals of a run. -/
def signals (run : List (Instant × Input)) : List (Instant × Signal) :=
  run.filterMap fun (now,input) => match input with
    | .signal s => some (now,s)
    | .poll => none

theorem mem_signals {time : Instant} {s : Signal} : (time,s) ∈ signals run ↔ (time,.signal s) ∈ run := by
  simp only [signals,List.mem_filterMap,Prod.exists]
  constructor
  · rintro ⟨now,input,member,same⟩
    cases input with
    | signal s => cases same; exact member
    | poll => cases same
  · intro member
    exact ⟨time,.signal s,member,rfl⟩

theorem poll_fst (p : Presence) (now : Instant) : (p.poll now).1 = { p with published := p.aliveAt now } := by
  rw [poll]
  split
  · rename_i same
    rw [same]
  · rfl

theorem after_cons (p : Presence) (now : Instant) (input : Input) (rest : List (Instant × Input)) :
    p.after ((now,input) :: rest) = (p.take now input).after rest := rfl

/-- A poll leaves no trace but the set that is handed on. -/
theorem after_eq (p : Presence) (run : List (Instant × Input)) :
    p.after run = { p.heard (signals run) with published := (p.after run).published } := by
  induction run generalizing p with
  | nil => rfl
  | cons head rest ih =>
    obtain ⟨now,input⟩ := head
    rw [after_cons]
    cases input with
    | signal s => exact ih (p.observe s now)
    | poll =>
      have later := ih (p.take now .poll)
      rw [show p.take now .poll = _ from poll_fst p now,heard_published] at later ⊢
      exact later

theorem self_heard (p : Presence) (signals : List (Instant × Signal)) : (p.heard signals).self = p.self := by
  induction signals generalizing p with
  | nil => rfl
  | cons s rest ih => exact ih (p.observe s.2 s.1)

theorem selfFailed_observe (p : Presence) (s : Signal) (now : Instant) :
    (p.observe s now).selfFailed = if s.peer = p.self then !s.alive else p.selfFailed := rfl

/-- The controller has failed if the last word about it says so. -/
theorem selfFailed_heard (self : PeerId) (timeout : Duration) (signals : List (Instant × Signal)) :
    ((new self timeout).heard signals).selfFailed = (lastSignal self signals).any fun s => !s.2.alive := by
  induction signals using List.reverseRecOn with
  | nil => rfl
  | append_singleton past s ih =>
    rw [heard_snoc,selfFailed_observe,self_heard,lastSignal_snoc,ih]
    show (if s.2.peer = self then _ else _) = _
    split
    · rfl
    · rfl

theorem mem_aliveAt_self {p : Presence} : p.self ∈ p.aliveAt now ↔ p.selfFailed = false := by
  rw [aliveAt]
  cases p.selfFailed with
  | true => simp
  | false => simp

/-- Another peer is alive exactly while the last signal about it was good and is younger than the timeout,
    and the controller itself unless the last signal about it was bad. -/
theorem mem_aliveAt_iff (self : PeerId) (timeout : Duration) (run : List (Instant × Input)) (now : Instant)
    (past : ∀ input ∈ run, input.1 ≤ now) :
    let p := (new self timeout).after run
    (∀ peer, peer ≠ self → (peer ∈ p.aliveAt now ↔
      ∃ time, lastSignal peer (signals run) = some (time,⟨peer,true⟩) ∧ now - time < timeout)) ∧
    (self ∈ p.aliveAt now ↔ ∀ s, lastSignal self (signals run) = some s → s.2.alive = true) := by
  intro p
  have heard : p.aliveAt now = ((new self timeout).heard (signals run)).aliveAt now := by
    rw [show p = _ from after_eq _ run]
    rfl
  have own : ((new self timeout).heard (signals run)).self = self := self_heard _ _
  have before : ∀ s ∈ signals run, s.1 ≤ now := fun s member => past _ (mem_signals.mp member)
  rw [heard]
  refine ⟨fun peer other => ?_,?_⟩
  · rw [mem_aliveAt_other (own.symm ▸ other)]
    exact mem_fresh_heard before
  · have lives : _ ∈ ((new self timeout).heard (signals run)).aliveAt now ↔ _ := mem_aliveAt_self
    rw [own,selfFailed_heard] at lives
    rw [lives]
    cases lastSignal self (signals run) with
    | none => simp
    | some s => simp

/-- Of four peers one has never been heard of, and one has failed so early that the clock cannot date it back
    by the timeout; of the others one has failed later, and one lives. The controller has failed and
    recovered. -/
def checkered : List (Instant × Input) :=
  [(0,.signal ⟨⟨2⟩,true⟩),(500,.poll),(600,.signal ⟨⟨2⟩,false⟩),(700,.signal ⟨⟨1⟩,false⟩),(1700,.signal ⟨⟨3⟩,true⟩),
    (2000,.signal ⟨⟨3⟩,false⟩),(2000,.poll),(2100,.signal ⟨⟨4⟩,true⟩),(2200,.signal ⟨⟨1⟩,true⟩)]

/-- The signal about the one that lives counts for less than the timeout. -/
theorem checkered_alive :
    let p := (new ⟨1⟩ 1000).after checkered
    (∀ input ∈ checkered, input.1 ≤ 3099) ∧ p.aliveAt 3099 = .of [⟨1⟩,⟨4⟩] ∧ p.aliveAt 3100 = .of [⟨1⟩] ∧
      before? 600 1000 = none ∧ before? 2000 1000 = some 1000 ∧
      (⟨4⟩ ∈ p.aliveAt 3099 ↔ ∃ time, lastSignal ⟨4⟩ (signals checkered) = some (time,⟨⟨4⟩,true⟩) ∧ 3099 - time < 1000) ∧
      (⟨1⟩ ∈ p.aliveAt 3099 ↔ ∀ s, lastSignal ⟨1⟩ (signals checkered) = some s → s.2.alive = true) := by
  have past : ∀ input ∈ checkered, input.1 ≤ 3099 := by decide
  obtain ⟨others,own⟩ := mem_aliveAt_iff ⟨1⟩ 1000 checkered 3099 past
  exact ⟨past,by decide +kernel,by decide +kernel,by decide,by decide,others ⟨4⟩ (by decide),own⟩

end Presence

namespace Tasks.Liveness
variable {p : Presence} {now : Instant} {e : Event} {run : List (Instant × Event)}

/-- The monitor after a run of events, each with its instant. -/
def after (p : Presence) (run : List (Instant × Event)) : Presence :=
  run.foldl (fun p event => (react p event.1 event.2).1) p

/-- The sets of living peers that a run hands on. -/
def published (p : Presence) : List (Instant × Event) → List PeerSet
  | [] => []
  | (now,e) :: rest => (react p now e).2.toList ++ published (react p now e).1 rest

/-- All that a run sends. -/
def sent (subscribers : List String) (p : Presence) : List (Instant × Event) → List Notice
  | [] => []
  | (now,e) :: rest => notices subscribers (react p now e).2 ++ sent subscribers (react p now e).1 rest

/-- What one subscriber is sent. -/
def received (subscriber : String) (sent : List Notice) : List PeerSet :=
  (sent.filter fun notice => notice.subscriber = subscriber).map Notice.alive

/-- The task looks who is alive at every tick and when the controller tells how it is itself. -/
def Event.polls (self : PeerId) : Event → Bool
  | .signal s => s.peer = self
  | .tick => true

/-! ### One event -/

/-- Every event lets the task poll a monitor that remembers the same set, or only take a signal. -/
theorem react_cases (p : Presence) (now : Instant) (e : Event) :
    (e.polls p.self = true ∧ ∃ q : Presence, q.self = p.self ∧ q.published = p.published ∧ react p now e = q.poll now) ∨
      (e.polls p.self = false ∧ ∃ s, react p now e = (p.observe s now,none)) := by
  cases e with
  | tick => exact .inl ⟨rfl,p,rfl,rfl,rfl⟩
  | signal s =>
    by_cases own : s.peer = p.self
    · exact .inl ⟨by simp [Event.polls,own],p.observe s now,rfl,rfl,by rw [react,if_pos own]⟩
    · exact .inr ⟨by simp [Event.polls,own],s,by rw [react,if_neg own]⟩

/-- An event hands on the set that the monitor remembers from then on, and that is another one than before;
    or it hands on nothing and the monitor remembers the same. -/
theorem published_react (p : Presence) (now : Instant) (e : Event) :
    (react p now e).2 = none ∧ (react p now e).1.published = p.published ∨
      (react p now e).2 = some (react p now e).1.published ∧ (react p now e).1.published ≠ p.published := by
  rcases react_cases p now e with ⟨_,q,_,same,reacts⟩ | ⟨_,s,reacts⟩
  · rw [reacts,← same]
    by_cases steady : q.aliveAt now = q.published
    · exact .inl (by rw [Presence.poll,if_pos steady]; exact ⟨rfl,rfl⟩)
    · exact .inr (by rw [Presence.poll,if_neg steady]; exact ⟨rfl,steady⟩)
  · exact .inl (by rw [reacts]; exact ⟨rfl,rfl⟩)

theorem published_of_polls (polls : e.polls p.self = true) :
    (react p now e).1.published = (react p now e).1.aliveAt now := by
  rcases react_cases p now e with ⟨_,q,_,_,reacts⟩ | ⟨silent,_⟩
  · rw [reacts,Presence.poll_fst]
    rfl
  · rw [silent] at polls
    cases polls

theorem self_react (p : Presence) (now : Instant) (e : Event) : (react p now e).1.self = p.self := by
  rcases react_cases p now e with ⟨_,q,same,_,reacts⟩ | ⟨_,s,reacts⟩
  · rw [reacts,Presence.poll_fst]
    exact same
  · rw [reacts]
    rfl

/-! ### Runs -/

theorem after_snoc (p : Presence) (run : List (Instant × Event)) (now : Instant) (e : Event) :
    after p (run ++ [(now,e)]) = (react (after p run) now e).1 := List.foldl_append

theorem self_after (p : Presence) (run : List (Instant × Event)) : (after p run).self = p.self := by
  induction run generalizing p with
  | nil => rfl
  | cons head rest ih => exact (ih (react p head.1 head.2).1).trans (self_react p head.1 head.2)

theorem published_append (p : Presence) (run more : List (Instant × Event)) :
    published p (run ++ more) = published p run ++ published (after p run) more := by
  induction run generalizing p with
  | nil => rfl
  | cons head rest ih =>
    obtain ⟨now,e⟩ := head
    rw [List.cons_append,published,ih,published,List.append_assoc]
    rfl

/-- The monitor remembers what was handed on last. -/
theorem getLastD_published (p : Presence) (run : List (Instant × Event)) :
    (published p run).getLastD p.published = (after p run).published := by
  induction run using List.reverseRecOn with
  | nil => rfl
  | append_singleton past last ih =>
    obtain ⟨now,e⟩ := last
    rw [published_append,after_snoc,published,published,List.append_nil]
    rcases published_react (after p past) now e with ⟨silent,same⟩ | ⟨news,_⟩
    · rw [silent,same,Option.toList_none,List.append_nil]
      exact ih
    · rw [news,Option.toList_some,List.getLastD_concat]

/-- Every set that is handed on differs from the one before. -/
theorem isChain_published (p : Presence) (run : List (Instant × Event)) :
    (p.published :: published p run).IsChain (· ≠ ·) := by
  induction run generalizing p with
  | nil => exact .singleton _
  | cons head rest ih =>
    obtain ⟨now,e⟩ := head
    have later := ih (react p now e).1
    rw [published]
    rcases published_react p now e with ⟨silent,same⟩ | ⟨news,changed⟩
    · rw [silent,Option.toList_none,List.nil_append,← same]
      exact later
    · rw [news,Option.toList_some,List.singleton_append]
      exact List.isChain_cons_cons.mpr ⟨changed.symm,later⟩

/-- Each set that is handed on is sent to every subscriber, before the next one to any. -/
theorem sent_eq (subscribers : List String) (p : Presence) (run : List (Instant × Event)) :
    sent subscribers p run = (published p run).flatMap fun alive => subscribers.map fun subscriber => ⟨subscriber,alive⟩ := by
  induction run generalizing p with
  | nil => rfl
  | cons head rest ih =>
    obtain ⟨now,e⟩ := head
    rw [sent,ih,published,List.flatMap_append]
    congr 1
    cases (react p now e).2 with
    | none => rfl
    | some alive => exact (List.flatMap_singleton ..).symm

/-- Of one set a subscriber is sent as many notices as there are places for it in the list. -/
theorem received_notices (subscribers : List String) (subscriber : String) (alive : PeerSet) :
    received subscriber (subscribers.map fun subscriber => ⟨subscriber,alive⟩) =
      List.replicate (subscribers.count subscriber) alive := by
  induction subscribers with
  | nil => rfl
  | cons first rest ih =>
    rw [received] at ih ⊢
    by_cases same : first = subscriber
    · simp [same,ih,List.replicate_succ]
    · simp [same,ih]

theorem received_sent {subscribers : List String} {subscriber : String} (once : subscribers.count subscriber = 1)
    (sets : List PeerSet) :
    received subscriber (sets.flatMap fun alive => subscribers.map fun subscriber => ⟨subscriber,alive⟩) = sets := by
  induction sets with
  | nil => rfl
  | cons alive rest ih =>
    have first := received_notices subscribers subscriber alive
    rw [once,List.replicate_one] at first
    rw [received] at first ih ⊢
    rw [List.flatMap_cons,List.filter_append,List.map_append,first,ih]
    rfl

/-- Every subscriber is sent the same sets, one after the other; the first is not empty, each differs from
    the one before, and whenever the task has looked who is alive the last one tells it. -/
theorem subscribers_told (self : PeerId) (timeout : Duration) (subscribers : List String)
    (run : List (Instant × Event)) :
    let start := Presence.new self timeout
    let sets := published start run
    sent subscribers start run = sets.flatMap (fun alive => subscribers.map fun subscriber => ⟨subscriber,alive⟩) ∧
    (∀ subscriber, subscribers.count subscriber = 1 → received subscriber (sent subscribers start run) = sets) ∧
    (∀ first ∈ sets.head?, first ≠ ∅) ∧ sets.IsChain (· ≠ ·) ∧
    ∀ past now e rest, run = past ++ (now,e) :: rest → e.polls self = true →
      let told := published start (past ++ [(now,e)])
      told <+: sets ∧ told.getLastD ∅ = (after start (past ++ [(now,e)])).aliveAt now := by
  intro start sets
  have all := sent_eq subscribers start run
  obtain ⟨first,chain⟩ := List.isChain_cons.mp (isChain_published start run)
  refine ⟨all,fun subscriber once => all ▸ received_sent once sets,fun alive member => (first alive member).symm,chain,?_⟩
  intro past now e rest split polls told
  subst split
  refine ⟨?_,?_⟩
  · have longer := published_append start (past ++ [(now,e)]) rest
    rw [List.append_assoc,List.singleton_append] at longer
    exact ⟨_,longer.symm⟩
  · rw [show told.getLastD ∅ = _ from getLastD_published start (past ++ [(now,e)]),after_snoc]
    exact published_of_polls (by rw [self_after]; exact polls)

/-- Two peers show up between the first two ticks, one of them fails and recovers before the next, and later
    the controller does; at the last tick one peer has been silent for too long. -/
def busy : List (Instant × Event) :=
  [(0,.tick),(100,.signal ⟨⟨2⟩,true⟩),(150,.signal ⟨⟨3⟩,true⟩),(1000,.tick),(1100,.signal ⟨⟨3⟩,false⟩),
    (1200,.signal ⟨⟨3⟩,true⟩),(2000,.tick),(2500,.signal ⟨⟨1⟩,false⟩),(2500,.signal ⟨⟨1⟩,false⟩),(2600,.signal ⟨⟨1⟩,true⟩),
    (3100,.tick)]

/-- The failure of the third peer, over before the next tick, is not told; that of the controller is, once. -/
theorem busy_told :
    let subscribers := ["requests","replication","orders"]
    let sets : List PeerSet :=
      [.of [⟨1⟩],.of [⟨1⟩,⟨2⟩,⟨3⟩],.of [⟨2⟩,⟨3⟩],.of [⟨1⟩,⟨2⟩,⟨3⟩],.of [⟨1⟩,⟨3⟩]]
    subscribers.count "replication" = 1 ∧ received "replication" (sent subscribers (.new ⟨1⟩ 3000) busy) = sets ∧
      sets.IsChain (· ≠ ·) ∧ (after (.new ⟨1⟩ 3000) busy).aliveAt 3100 = .of [⟨1⟩,⟨3⟩] := by
  intro subscribers sets
  have named : subscribers.count "replication" = 1 := by decide
  obtain ⟨_,told,_,chain,settled⟩ := subscribers_told ⟨1⟩ 3000 subscribers busy
  have all : published (.new ⟨1⟩ 3000) busy = sets := by decide +kernel
  have last := (settled (busy.take 10) 3100 .tick [] rfl rfl).2
  exact ⟨named,(told _ named).trans all,all ▸ chain,last.symm.trans (by decide +kernel)⟩

end Tasks.Liveness
end ElevatorFleet

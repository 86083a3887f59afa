import ElevatorFleet.Ledger
import ElevatorFleet.Report

/-!
# Cycles

What a call board holds about one call: its status, and its witnesses while its cycle
is open. A report changes a cycle by `Cycle.hear` and a new membership by
`Cycle.review`. Both keep it sound: open exactly while the call is unconfirmed, with the
controller itself among the witnesses and never with a quorum. What is heard twice counts
once, and without clears a cycle only goes on.
-/
namespace ElevatorFleet
open Std

theorem Belief.eq_iff {b : Belief} {call : Call} {s : Status} : b = ⟨call,s⟩ ↔ b.call = call ∧ b.status = s := by
  cases b; simp

/-- The peers are as many as the call needs and include everybody alive. -/
def Call.AgreedBy (call : Call) (peers alive : PeerSet) : Prop :=
  call.quorum ≤ peers.size ∧ ∀ p ∈ alive, p ∈ peers

instance (call : Call) (peers alive : PeerSet) : Decidable (call.AgreedBy peers alive) :=
  decidable_of_iff (call.quorum ≤ peers.size ∧ alive.within peers = true) (and_congr_right' PeerSet.within_iff)

theorem PeerSet.mem_insert {s : PeerSet} {p q : PeerId} : q ∈ s.insert p ↔ q = p ∨ q ∈ s := by
  rw [ExtTreeSet.mem_insert,LawfulEqCmp.compare_eq_iff_eq,eq_comm]

/-- Two members of a set with at least two. -/
theorem PeerSet.two_of_size {s : PeerSet} (size : 2 ≤ s.size) : ∃ p ∈ s, ∃ q ∈ s, p ≠ q := by
  have distinct := s.distinct_toList
  rw [← ExtTreeSet.length_toList] at size
  match listed : s.toList with
  | [] | [_] => rw [listed] at size; simp at size
  | p :: q :: rest =>
    rw [listed,List.pairwise_cons] at distinct
    refine ⟨p,?_,q,?_,fun same => distinct.1 q List.mem_cons_self (same ▸ ReflCmp.compare_self)⟩
    · exact ExtTreeSet.mem_toList.mp (listed ▸ List.mem_cons_self)
    · exact ExtTreeSet.mem_toList.mp (listed ▸ List.mem_cons_of_mem _ List.mem_cons_self)

theorem PeerSet.size_of_two {s : PeerSet} {p q : PeerId} (first : p ∈ s) (second : q ∈ s) (apart : p ≠ q) :
    2 ≤ s.size := by
  rw [← ExtTreeSet.mem_toList] at first second
  rw [← ExtTreeSet.length_toList]
  match listed : s.toList with
  | [] => rw [listed] at first; cases first
  | [r] =>
    rw [listed,List.mem_singleton] at first second
    exact absurd (first.trans second.symm) apart
  | _ :: _ :: _ => simp

theorem PeerSet.one_of_size {s : PeerSet} (size : 1 ≤ s.size) : ∃ p, p ∈ s := by
  rw [← ExtTreeSet.length_toList] at size
  obtain ⟨p,member⟩ := List.exists_mem_of_length_pos size
  exact ⟨p,ExtTreeSet.mem_toList.mp member⟩

/-- Somebody waits, so that the call is going to be served. -/
def Status.Raised (s : Status) : Prop := s = .unconfirmed ∨ s = .confirmed

instance : DecidablePred Status.Raised := fun s => inferInstanceAs (Decidable (s = .unconfirmed ∨ s = .confirmed))

theorem Status.raised_of_rank {s : Status} (high : 2 ≤ s.rank) : s.Raised := by
  cases s <;> simp_all [rank,Raised]

theorem Status.confirmed_of_rank {s : Status} (high : 3 ≤ s.rank) : s = .confirmed := by
  cases s <;> simp_all [rank]

theorem Status.Raised.rank {s : Status} (raised : s.Raised) : 2 ≤ s.rank := by
  rcases raised with rfl | rfl <;> decide

theorem Status.Raised.notAbsent {s : Status} (raised : s.Raised) : s ≠ .absent := by
  rcases raised with rfl | rfl <;> decide

theorem Ledger.hasQuorum_iff (l : Ledger) (call : Call) (alive : PeerSet) :
    l.hasQuorum call alive = true ↔ ∃ peers, l.witnesses? call = some peers ∧ call.AgreedBy peers alive := by
  rw [hasQuorum]
  cases entry : l.witnesses? call with
  | none => simp
  | some peers => simp [Call.AgreedBy,PeerSet.within_iff]

/-- What a board holds about one call. -/
@[ext] structure Cycle where
  status : Status
  /-- The witnesses while the cycle is open. -/
  witnesses : Option PeerSet

namespace Cycle

/-- The witnesses once `source` and `self` are among them. -/
def joined (k : Cycle) (source self : PeerId) : PeerSet := ((k.witnesses.getD ∅).insert source).insert self

/-- The cycle of a call that has just been confirmed. -/
def closed : Cycle := ⟨.confirmed,none⟩

/-- The cycle of `call` at the board of `self` after `source` has told a status. -/
def hear (call : Call) (self : PeerId) (alive : PeerSet) (k : Cycle) (source : PeerId) :
    Status → Cycle
  | .unknown => k
  | .absent =>
    match k.status with
    | .confirmed | .unknown => { k with status := .absent }
    | .absent | .unconfirmed => k
  | .unconfirmed =>
    if k.status = .confirmed then k
    else if call.AgreedBy (k.joined source self) alive then closed
    else ⟨.unconfirmed,some (k.joined source self)⟩
  | .confirmed =>
    match k.status with
    | .unconfirmed | .unknown => closed
    | .absent | .confirmed => k

/-- The cycle is open and its witnesses are a quorum. -/
def Due (call : Call) (alive : PeerSet) (k : Cycle) : Prop :=
  k.status = .unconfirmed ∧ ∃ peers, k.witnesses = some peers ∧ call.AgreedBy peers alive

instance (call : Call) (alive : PeerSet) (k : Cycle) : Decidable (k.Due call alive) :=
  decidable_of_iff
    (k.status = .unconfirmed ∧ k.witnesses.any (fun peers => decide (call.AgreedBy peers alive)) = true)
    (and_congr_right' (by cases k.witnesses <;> simp))

/-- The cycle of `call` after the membership has become `alive`. -/
def review (call : Call) (alive : PeerSet) (k : Cycle) : Cycle :=
  if k.Due call alive then closed else k

@[simp] theorem mem_joined {k : Cycle} {source self p : PeerId} :
    p ∈ k.joined source self ↔ p = self ∨ p = source ∨ p ∈ k.witnesses.getD ∅ := by
  rw [joined,PeerSet.mem_insert,PeerSet.mem_insert]

/-- A cycle has witnesses exactly while its call is unconfirmed; the board itself is
    one of them, and they are no quorum yet. -/
structure Sound (call : Call) (own : PeerId) (alive : PeerSet) (k : Cycle) : Prop where
  isOpen : k.witnesses.isSome ↔ k.status = .unconfirmed
  witnessed : ∀ peers, k.witnesses = some peers → own ∈ peers
  waiting : ∀ peers, k.witnesses = some peers → ¬ call.AgreedBy peers alive

theorem Sound.shut {call : Call} {own : PeerId} {alive : PeerSet} {k : Cycle} (sound : k.Sound call own alive)
    (settled : k.status ≠ .unconfirmed) : k.witnesses = none :=
  Option.not_isSome_iff_eq_none.mp fun entry => settled (sound.isOpen.mp entry)

theorem Sound.no_witness {call : Call} {own : PeerId} {alive : PeerSet} {k : Cycle} (sound : k.Sound call own alive)
    (settled : k.status ≠ .unconfirmed) (p : PeerId) : p ∉ k.witnesses.getD ∅ := by
  rw [sound.shut settled]
  exact ExtTreeSet.not_mem_empty

theorem sound_closed (call : Call) (self : PeerId) (alive : PeerSet) : closed.Sound call self alive :=
  ⟨by simp [closed],by simp [closed],by simp [closed]⟩

theorem sound_hear {call : Call} {self : PeerId} {alive : PeerSet} {k : Cycle} (sound : k.Sound call self alive)
    (source : PeerId) (told : Status) : (k.hear call self alive source told).Sound call self alive := by
  cases told with
  | unknown => exact sound
  | absent =>
    rw [hear]
    split
    · rename_i isConfirmed
      exact ⟨by simp [sound.isOpen,isConfirmed],sound.witnessed,sound.waiting⟩
    · rename_i isUnknown
      exact ⟨by simp [sound.isOpen,isUnknown],sound.witnessed,sound.waiting⟩
    · exact sound
    · exact sound
  | unconfirmed =>
    rw [hear]
    split
    · exact sound
    · split
      · exact sound_closed call self alive
      · rename_i notAgreed
        refine ⟨by simp,?_,?_⟩
        · rintro peers same
          cases same
          exact mem_joined.mpr (.inl rfl)
        · rintro peers same
          cases same
          exact notAgreed
  | confirmed =>
    rw [hear]
    split
    · exact sound_closed call self alive
    · exact sound_closed call self alive
    · exact sound
    · exact sound

theorem sound_review {call : Call} {self : PeerId} {before : PeerSet} {k : Cycle} (sound : k.Sound call self before)
    (alive : PeerSet) : (k.review call alive).Sound call self alive := by
  rw [review]
  split
  · exact sound_closed call self alive
  · rename_i notDue
    refine ⟨sound.isOpen,sound.witnessed,fun peers entry agreed => notDue ⟨?_,peers,entry,agreed⟩⟩
    exact sound.isOpen.mp (by simp [entry])

/-- After a report the status of a cycle is the old one, the one told, or confirmed by
    a quorum that the report completes. -/
theorem status_hear (call : Call) (own : PeerId) (alive : PeerSet) (k : Cycle) (source : PeerId) (told : Status) :
    (k.hear call own alive source told).status = k.status ∨ (k.hear call own alive source told).status = told ∨
      (told = .unconfirmed ∧ k.status ≠ .confirmed ∧ call.AgreedBy (k.joined source own) alive ∧
        k.hear call own alive source told = closed) := by
  cases told with
  | unknown => exact .inl rfl
  | absent => rw [hear]; split <;> simp
  | unconfirmed =>
    rw [hear]
    split
    · exact .inl rfl
    · rename_i open_
      split
      · rename_i agreed; exact .inr (.inr ⟨rfl,open_,agreed,rfl⟩)
      · exact .inr (.inl rfl)
  | confirmed => rw [hear]; split <;> simp [closed]

/-- A witness after an unconfirmed report was one before, or is its source or the
    controller itself; no other report adds witnesses. -/
theorem witness_hear {call : Call} {own : PeerId} {alive : PeerSet} {k : Cycle} {source : PeerId} {told : Status}
    {p : PeerId} (member : p ∈ (k.hear call own alive source told).witnesses.getD ∅) :
    p ∈ k.witnesses.getD ∅ ∨ (told = .unconfirmed ∧ (p = own ∨ p = source)) := by
  cases told with
  | unknown => exact .inl member
  | absent => rw [hear] at member; split at member <;> exact .inl member
  | unconfirmed =>
    rw [hear] at member
    split at member
    · exact .inl member
    · split at member
      · simp [closed] at member
      · rcases mem_joined.mp member with same | same | old
        · exact .inr ⟨rfl,.inl same⟩
        · exact .inr ⟨rfl,.inr same⟩
        · exact .inl old
  | confirmed => rw [hear] at member; split at member <;> simp_all [closed]

theorem witness_review {call : Call} {alive : PeerSet} {k : Cycle} {p : PeerId}
    (member : p ∈ (k.review call alive).witnesses.getD ∅) : p ∈ k.witnesses.getD ∅ := by
  rw [review] at member
  split at member
  · simp [closed] at member
  · exact member

/-! ### Hearing the same again -/

theorem joined_joined (k : Cycle) (s : Status) (source own : PeerId) :
    (⟨s,some (k.joined source own)⟩ : Cycle).joined source own = k.joined source own := by
  apply ExtTreeSet.ext_mem
  intro p
  rw [mem_joined,Option.getD_some,mem_joined]
  constructor
  · rintro (same | same | old)
    · exact .inl same
    · exact .inr (.inl same)
    · exact old
  · exact fun old => .inr (.inr old)

/-- What a peer tells twice in a row counts once. -/
theorem hear_hear (call : Call) (own : PeerId) (alive : PeerSet) (k : Cycle) (source : PeerId) (told : Status) :
    (k.hear call own alive source told).hear call own alive source told = k.hear call own alive source told := by
  cases told with
  | unknown => rfl
  | absent => cases held : k.status <;> simp [hear,held]
  | unconfirmed =>
    by_cases isConfirmed : k.status = .confirmed
    · simp [hear,isConfirmed]
    · by_cases agreed : call.AgreedBy (k.joined source own) alive
      · simp [hear,isConfirmed,agreed,closed]
      · simp [hear,isConfirmed,agreed,joined_joined]
  | confirmed => cases held : k.status <;> simp [hear,held,closed]

/-- A status that does not differ from the own one tells nothing. -/
theorem hear_same {call : Call} {own : PeerId} {alive : PeerSet} {k : Cycle} {source : PeerId} {told : Status}
    (same : Status.differs k.status told = false) : k.hear call own alive source told = k := by
  cases told with
  | unknown => rfl
  | absent => cases held : k.status <;> simp_all [hear,Status.differs]
  | unconfirmed => cases held : k.status <;> simp [held,Status.differs] at same
  | confirmed => cases held : k.status <;> simp_all [hear,Status.differs]

/-! ### Without clears -/

/-- Only a clear takes a call back. -/
theorem rank_hear {call : Call} {own : PeerId} {alive : PeerSet} {k : Cycle} {source : PeerId} {told : Status}
    (noClear : told ≠ .absent) : k.status.rank ≤ (k.hear call own alive source told).status.rank := by
  cases told with
  | unknown => exact Nat.le_refl _
  | absent => exact absurd rfl noClear
  | unconfirmed =>
    rw [hear]
    split
    · exact Nat.le_refl _
    · split <;> cases held : k.status <;> simp_all [closed,Status.rank]
  | confirmed => rw [hear]; cases held : k.status <;> simp [closed,held,Status.rank]

theorem raised_stays {call : Call} {own : PeerId} {alive : PeerSet} {k : Cycle} {source : PeerId} {told : Status}
    (raised : k.status.Raised) (noClear : told ≠ .absent) : (k.hear call own alive source told).status.Raised :=
  Status.raised_of_rank (Nat.le_trans raised.rank (rank_hear noClear))

/-- Whoever is told that a call is unconfirmed holds it from then on. -/
theorem raised_hear (call : Call) (own : PeerId) (alive : PeerSet) (k : Cycle) (source : PeerId) :
    (k.hear call own alive source .unconfirmed).status.Raised := by
  rw [hear]
  split
  · rename_i isConfirmed
    exact .inr isConfirmed
  · split
    · exact .inr rfl
    · exact .inl rfl

/-- A confirmation is believed unless the call has been cleared. -/
theorem confirmed_hear {call : Call} {own : PeerId} {alive : PeerSet} {k : Cycle} (noClear : k.status ≠ .absent)
    (source : PeerId) : (k.hear call own alive source .confirmed).status = .confirmed := by
  rw [hear]
  split
  · rfl
  · rfl
  · rename_i isAbsent
    exact absurd isAbsent noClear
  · assumption

/-- The call is confirmed, or `p` is among its witnesses. -/
def Counts (k : Cycle) (p : PeerId) : Prop := k.status = .confirmed ∨ p ∈ k.witnesses.getD ∅

/-- Unless it takes a clear, a cycle that counts a peer does so until it is closed. -/
theorem counts_hear {call : Call} {own : PeerId} {alive : PeerSet} {k : Cycle} {p : PeerId} (counts : k.Counts p)
    (source : PeerId) {told : Status} (noClear : told ≠ .absent) :
    (k.hear call own alive source told).Counts p := by
  cases told with
  | unknown => exact counts
  | absent => exact absurd rfl noClear
  | unconfirmed =>
    rw [hear]
    split
    · exact counts
    · rename_i open_
      split
      · exact .inl rfl
      · exact .inr (mem_joined.mpr (.inr (.inr (counts.resolve_left open_))))
  | confirmed =>
    rw [hear]
    split
    · exact .inl rfl
    · exact .inl rfl
    · exact counts
    · exact counts

/-- A cycle counts whoever tells it that the call is unconfirmed. -/
theorem counts_source (call : Call) (own : PeerId) (alive : PeerSet) (k : Cycle) (source : PeerId) :
    (k.hear call own alive source .unconfirmed).Counts source := by
  rw [hear]
  split
  · rename_i isConfirmed
    exact .inl isConfirmed
  · split
    · exact .inl rfl
    · exact .inr (mem_joined.mpr (.inr (.inl rfl)))

/-- With two controllers alive a call is confirmed once everybody else is counted. -/
theorem Sound.confirmed_of_counts {call : Call} {own : PeerId} {alive : PeerSet} {k : Cycle}
    (sound : k.Sound call own alive) (two : 2 ≤ alive.size) (others : ∀ p ∈ alive, p ≠ own → k.Counts p) :
    k.status = .confirmed := by
  by_cases isConfirmed : k.status = .confirmed
  · exact isConfirmed
  have counted : ∀ p ∈ alive, p ≠ own → p ∈ k.witnesses.getD ∅ := fun p member other =>
    (others p member other).resolve_left isConfirmed
  obtain ⟨p,first,q,second,apart⟩ := PeerSet.two_of_size two
  have someone : ∃ r ∈ k.witnesses.getD ∅, r ≠ own := by
    by_cases same : p = own
    · have other : q ≠ own := fun also => apart (same.trans also.symm)
      exact ⟨q,counted q second other,other⟩
    · exact ⟨p,counted p first same,same⟩
  cases entry : k.witnesses with
  | none =>
    obtain ⟨r,member,_⟩ := someone
    rw [entry] at member
    exact absurd member ExtTreeSet.not_mem_empty
  | some peers =>
    rw [entry,Option.getD_some] at counted someone
    have itself := sound.witnessed peers entry
    obtain ⟨r,member,other⟩ := someone
    refine absurd ⟨?_,fun p member => ?_⟩ (sound.waiting peers entry)
    · have most : call.quorum ≤ 2 := by cases call <;> simp [Call.quorum]
      exact Nat.le_trans most (PeerSet.size_of_two member itself other)
    · by_cases same : p = own
      · exact same ▸ itself
      · exact counted p member same

/-! ### Without presses -/

/-- Only an unconfirmed report makes a call unconfirmed. -/
theorem calm_hear {call : Call} {own : PeerId} {alive : PeerSet} {k : Cycle} {source : PeerId} {told : Status}
    (calm : k.status ≠ .unconfirmed) (noPress : told ≠ .unconfirmed) :
    (k.hear call own alive source told).status ≠ .unconfirmed := by
  rcases status_hear call own alive k source told with old | new | ⟨press,_⟩
  · rw [old]
    exact calm
  · rw [new]
    exact noPress
  · exact absurd press noPress

/-- Only an unconfirmed report brings an absent call back. -/
theorem absent_hear {call : Call} {own : PeerId} {alive : PeerSet} {k : Cycle} {source : PeerId} {told : Status}
    (isAbsent : k.status = .absent) (noPress : told ≠ .unconfirmed) : k.hear call own alive source told = k := by
  cases told with
  | unknown => rfl
  | absent => simp [hear,isAbsent]
  | unconfirmed => exact absurd rfl noPress
  | confirmed => simp [hear,isAbsent]

/-- A clear is obeyed unless the call is unconfirmed. -/
theorem cleared_hear {call : Call} {own : PeerId} {alive : PeerSet} {k : Cycle} (calm : k.status ≠ .unconfirmed)
    (source : PeerId) : (k.hear call own alive source .absent).status = .absent := by
  cases held : k.status with
  | unknown => simp [hear,held]
  | absent => simp [hear,held]
  | unconfirmed => exact absurd held calm
  | confirmed => simp [hear,held]

/-- A membership says nothing about a call that is not unconfirmed. -/
theorem review_calm {call : Call} {alive : PeerSet} {k : Cycle} (calm : k.status ≠ .unconfirmed) :
    k.review call alive = k :=
  if_neg fun due => calm due.1

/-! ### Hearing of everybody -/

/-- A cycle that is not cleared counts whoever tells it that the call is raised. -/
theorem counts_told {call : Call} {own : PeerId} {alive : PeerSet} {k : Cycle} (noClear : k.status ≠ .absent)
    (source : PeerId) {told : Status} (raised : told.Raised) : (k.hear call own alive source told).Counts source := by
  rcases raised with rfl | rfl
  · exact counts_source call own alive k source
  · exact .inl (confirmed_hear noClear source)

/-- The cycle after each of the sources has told its status. -/
def hearAll (call : Call) (own : PeerId) (alive : PeerSet) (told : PeerId → Status) (k : Cycle)
    (sources : List PeerId) : Cycle :=
  sources.foldl (fun k p => k.hear call own alive p (told p)) k

/-- Nobody but the controller itself has witnessed the call. -/
structure Alone (own : PeerId) (k : Cycle) : Prop where
  waits : k.status ≠ .confirmed
  witnesses : ∀ p ∈ k.witnesses.getD ∅, p = own

/-- The witnesses tell that the call is unconfirmed, and so does everybody once it is
    confirmed. -/
structure Backed (own : PeerId) (alive : PeerSet) (told : PeerId → Status) (k : Cycle) : Prop where
  witnesses : ∀ p ∈ k.witnesses.getD ∅, p = own ∨ told p = .unconfirmed
  confirmed : k.status = .confirmed → ∀ p ∈ alive, p = own ∨ told p = .unconfirmed

section
variable {call : Call} {own : PeerId} {alive : PeerSet} {told : PeerId → Status} {k : Cycle}

theorem Alone.press (alone : k.Alone own) (two : 2 ≤ alive.size) : (k.hear call own alive own .unconfirmed).Alone own := by
  have only : ∀ p ∈ k.joined own own, p = own := by
    intro p member
    rcases mem_joined.mp member with same | same | old
    · exact same
    · exact same
    · exact alone.witnesses p old
  have notAgreed : ¬ call.AgreedBy (k.joined own own) alive := by
    intro agreed
    obtain ⟨p,first,q,second,apart⟩ := PeerSet.two_of_size two
    exact apart ((only p (agreed.2 p first)).trans (only q (agreed.2 q second)).symm)
  rw [hear,if_neg alone.waits,if_neg notAgreed]
  refine ⟨by simp,fun p member => only p ?_⟩
  rwa [Option.getD_some] at member

theorem Alone.backed (alone : k.Alone own) : k.Backed own alive told :=
  ⟨fun p member => .inl (alone.witnesses p member),fun confirmed => absurd confirmed alone.waits⟩

theorem Backed.hear (backed : k.Backed own alive told) {source : PeerId} (unsure : told source ≠ .confirmed) :
    (k.hear call own alive source (told source)).Backed own alive told := by
  constructor
  · intro p member
    rcases witness_hear member with old | ⟨press,same | rfl⟩
    · exact backed.witnesses p old
    · exact .inl same
    · exact .inr press
  · intro confirmed p member
    rcases status_hear call own alive k source (told source) with old | new | ⟨press,_,agreed,_⟩
    · exact backed.confirmed (old.symm.trans confirmed) p member
    · exact absurd (new.symm.trans confirmed) unsure
    · rcases mem_joined.mp (agreed.2 p member) with same | rfl | old
      · exact .inl same
      · exact .inr press
      · exact backed.witnesses p old

/-- The clear of a peer that has not heard of the press comes too early to take the call back:
    as long as that peer is missing, the call is not confirmed. -/
theorem Backed.raised_hear (backed : k.Backed own alive told) (raised : k.status.Raised) {source : PeerId}
    (member : source ∈ alive) (other : source ≠ own) :
    (k.hear call own alive source (told source)).status.Raised := by
  by_cases clear : told source = .absent
  · rcases raised with waits | confirmed
    · rw [clear,Cycle.hear,waits]
      exact .inl waits
    · rcases backed.confirmed confirmed source member with same | press
      · exact absurd same other
      · cases clear.symm.trans press
  · exact raised_stays raised clear

theorem Backed.raised_hearAll {sources : List PeerId} (backed : k.Backed own alive told)
    (others : ∀ p ∈ sources, p ∈ alive ∧ p ≠ own) (unsure : ∀ p ∈ sources, told p ≠ .confirmed)
    (somebody : k.status.Raised ∨ ∃ p ∈ sources, told p = .unconfirmed) :
    (k.hearAll call own alive told sources).status.Raised := by
  induction sources generalizing k with
  | nil =>
    rcases somebody with raised | ⟨p,member,_⟩
    · exact raised
    · cases member
  | cons source rest ih =>
    obtain ⟨member,other⟩ := others source List.mem_cons_self
    refine ih (backed.hear (unsure source List.mem_cons_self)) (fun p later => others p (List.mem_cons_of_mem _ later))
      (fun p later => unsure p (List.mem_cons_of_mem _ later)) ?_
    rcases somebody with raised | ⟨p,inside,press⟩
    · exact .inl (backed.raised_hear raised member other)
    · rcases List.mem_cons.mp inside with rfl | later
      · have heard := Cycle.raised_hear call own alive k p
        rw [← press] at heard
        exact .inl heard
      · exact .inr ⟨p,later,press⟩

theorem sound_hearAll (sound : k.Sound call own alive) (sources : List PeerId) :
    (k.hearAll call own alive told sources).Sound call own alive := by
  induction sources generalizing k with
  | nil => exact sound
  | cons source rest ih => exact ih (sound_hear sound source (told source))

theorem counts_hearAll {sources : List PeerId} (noClear : ∀ p ∈ sources, told p ≠ .absent) {p : PeerId}
    (counts : k.Counts p) : (k.hearAll call own alive told sources).Counts p := by
  induction sources generalizing k with
  | nil => exact counts
  | cons source rest ih =>
    exact ih (fun p later => noClear p (List.mem_cons_of_mem _ later))
      (counts_hear counts source (noClear source List.mem_cons_self))

/-- Everybody who tells that the call is raised is counted. -/
theorem counts_told_hearAll {sources : List PeerId} (raised : k.status.Raised)
    (all : ∀ p ∈ sources, (told p).Raised) {p : PeerId} (member : p ∈ sources) :
    (k.hearAll call own alive told sources).Counts p := by
  induction sources generalizing k with
  | nil => cases member
  | cons source rest ih =>
    have later : ∀ p ∈ rest, (told p).Raised := fun p inside => all p (List.mem_cons_of_mem _ inside)
    have now := all source List.mem_cons_self
    rcases List.mem_cons.mp member with rfl | inside
    · exact counts_hearAll (fun q member => (later q member).notAbsent) (counts_told raised.notAbsent p now)
    · exact ih (raised_stays raised now.notAbsent) later inside

/-- Whoever waits for a call and hears from everybody else that it is raised confirms it. -/
theorem Sound.confirmed_hearAll (sound : k.Sound call own alive) (two : 2 ≤ alive.size) (raised : k.status.Raised)
    {sources : List PeerId} (all : ∀ p ∈ sources, (told p).Raised) (everybody : ∀ p ∈ alive, p ≠ own → p ∈ sources) :
    (k.hearAll call own alive told sources).status = .confirmed :=
  (sound_hearAll sound sources).confirmed_of_counts two fun p member other =>
    counts_told_hearAll raised all (everybody p member other)

end

end Cycle

end ElevatorFleet

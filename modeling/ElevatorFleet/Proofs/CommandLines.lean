import ElevatorFleet.Proofs.Spacing
import ElevatorFleet.Proofs.Spelling
import Mathlib.Tactic.MkIffOfInductiveProp

/-!
# Lines that are commands

A line is a command if its words are, however it is spaced; `Denotes` lists the commands by their words. Such
a line is read as what its words denote if that is about no floor or a served one, and is refused because of
the floor otherwise; every other line is refused for the way it is written (`reads_exactly`). So a command
that a controller can be given is read from the line that its own words make.
-/
namespace ElevatorFleet
variable {self : PeerId} {line : String} {ws : List String} {numFloors : UInt8} {e : EntryError}

/-- The refusal is about how a line is written, and not about which floors are served. -/
def EntryError.Unreadable : EntryError → Prop
  | .floorOutOfRange _ _ => False
  | _ => True

/-- A result that comes in two steps comes from a result of each. -/
theorem bind_eq_ok_iff {α β : Type} {x : Except EntryError α} {f : α → Except EntryError β} {b : β} :
    x >>= f = .ok b ↔ ∃ a, x = .ok a ∧ f a = .ok b := by
  cases x <;> simp [bind,Except.bind]

/-- A refusal in two steps is one of the first or of the second. -/
theorem bind_eq_error_iff {α β : Type} {x : Except EntryError α} {f : α → Except EntryError β} :
    x >>= f = .error e ↔ x = .error e ∨ ∃ a, x = .ok a ∧ f a = .error e := by
  cases x <;> simp [bind,Except.bind]

/-! ### What words denote -/

/-- The words name a call, a cab call being one of the car of `self`. -/
@[mk_iff] inductive Call.Named (self : PeerId) : List String → Call → Prop where
  | hall {floor : Floor} {direction : Direction} {f d : String} (level : floor.Written f)
      (way : OneOf direction.spellings d) : Named self ["hall",f,d] (.hall floor direction)
  | cab {floor : Floor} {f : String} (level : floor.Written f) : Named self ["cab",f] (.cab floor self)

namespace Command
variable {c : Command}

/-- The words are the command, given to `self`. -/
inductive Denotes (self : PeerId) : List String → Command → Prop where
  | press {words : List String} {call : Call} (named : call.Named self words) : Denotes self words (.press call)
  | clear {words : List String} {call : Call} (named : call.Named self words) :
      Denotes self ("clear" :: words) (.clear call)
  | state {floor : Floor} {behavior : Behavior} {motor : Motor} {f b m : String} (level : floor.Written f)
      (doing : OneOf behavior.spellings b) (drive : OneOf motor.spellings m) :
      Denotes self ["state",f,b,m] (.state ⟨floor,behavior,motor⟩)
  | fail : Denotes self ["fail"] .fail
  | recover : Denotes self ["recover"] .recover

/-! ### Reading words -/

theorem readHall_eq_ok_iff (self : PeerId) {f d : String} {call : Call} :
    readHall f d = .ok call ↔ call.Named self ["hall",f,d] := by
  simp only [readHall,bind_eq_ok_iff,readFloor_eq_ok_iff,Direction.read_eq_ok_iff,pure,Except.pure,Except.ok.injEq]
  constructor
  · rintro ⟨_,level,_,way,rfl⟩
    exact .hall level way
  · intro named
    obtain ⟨floor,direction,_,_,level,way,words,rfl⟩ | ⟨_,_,_,words,_⟩ := (Call.named_iff ..).mp named
    · cases words
      exact ⟨floor,level,direction,way,rfl⟩
    · simp at words

theorem readCab_eq_ok_iff {f : String} {call : Call} : readCab self f = .ok call ↔ call.Named self ["cab",f] := by
  simp only [readCab,bind_eq_ok_iff,readFloor_eq_ok_iff,pure,Except.pure,Except.ok.injEq]
  constructor
  · rintro ⟨_,level,rfl⟩
    exact .cab level
  · intro named
    obtain ⟨_,_,_,_,_,_,words,_⟩ | ⟨floor,_,level,words,rfl⟩ := (Call.named_iff ..).mp named
    · simp at words
    · cases words
      exact ⟨floor,level,rfl⟩

theorem readState_eq_ok_iff {f b m : String} {s : CarState} : readState f b m = .ok s ↔
    s.floor.Written f ∧ OneOf s.behavior.spellings b ∧ OneOf s.motor.spellings m := by
  simp only [readState,bind_eq_ok_iff,readFloor_eq_ok_iff,Behavior.read_eq_ok_iff,Motor.read_eq_ok_iff,pure,Except.pure,
    Except.ok.injEq]
  constructor
  · rintro ⟨_,level,_,doing,_,drive,rfl⟩
    exact ⟨level,doing,drive⟩
  · rintro ⟨level,doing,drive⟩
    exact ⟨_,level,_,doing,_,drive,rfl⟩

theorem ofWords_eq_ok_iff : ofWords self line ws = .ok c ↔ Denotes self ws c := by
  constructor
  · intro read
    unfold ofWords at read
    split at read
    all_goals simp only [bind_eq_ok_iff,pure,Except.pure,readHall_eq_ok_iff self,readCab_eq_ok_iff,readState_eq_ok_iff,
      Except.ok.injEq,reduceCtorEq] at read
    · obtain ⟨call,named,rfl⟩ := read
      exact .press named
    · obtain ⟨call,named,rfl⟩ := read
      exact .press named
    · obtain ⟨call,named,rfl⟩ := read
      exact .clear named
    · obtain ⟨call,named,rfl⟩ := read
      exact .clear named
    · obtain ⟨s,⟨level,doing,drive⟩,rfl⟩ := read
      exact .state level doing drive
    · subst read
      exact .fail
    · subst read
      exact .recover
  · intro denotes
    cases denotes with
    | press named =>
      cases named with
      | hall level way => exact bind_eq_ok_iff.mpr ⟨_,(readHall_eq_ok_iff self).mpr (.hall level way),rfl⟩
      | cab level => exact bind_eq_ok_iff.mpr ⟨_,readCab_eq_ok_iff.mpr (.cab level),rfl⟩
    | clear named =>
      cases named with
      | hall level way => exact bind_eq_ok_iff.mpr ⟨_,(readHall_eq_ok_iff self).mpr (.hall level way),rfl⟩
      | cab level => exact bind_eq_ok_iff.mpr ⟨_,readCab_eq_ok_iff.mpr (.cab level),rfl⟩
    | @state floor behavior motor _ _ _ level doing drive =>
      have read : readState _ _ _ = .ok ⟨floor,behavior,motor⟩ := readState_eq_ok_iff.mpr ⟨level,doing,drive⟩
      exact bind_eq_ok_iff.mpr ⟨_,read,rfl⟩
    | fail => rfl
    | recover => rfl

/-! ### Refusals -/

/-- Whatever is refused is refused as unreadable. -/
def RefusesText {α : Type} (x : Except EntryError α) : Prop := ∀ e, x = .error e → e.Unreadable

namespace RefusesText
variable {α β : Type}

theorem ok (a : α) : RefusesText (.ok a : Except EntryError α) := nofun

theorem error (unreadable : e.Unreadable) : RefusesText (.error e : Except EntryError α) := by
  rintro _ ⟨⟩
  exact unreadable

theorem bind {x : Except EntryError α} {f : α → Except EntryError β} (first : RefusesText x)
    (next : ∀ a, RefusesText (f a)) : RefusesText (x >>= f) := by
  cases x with
  | ok a => exact next a
  | error e => exact .error (first e rfl)

end RefusesText

theorem refuses_readFloor (f : String) : RefusesText (readFloor f) := by
  unfold readFloor
  dsimp only
  split
  · exact .ok _
  · exact .error trivial

theorem refuses_direction (d : String) : RefusesText (Direction.read d) := by
  unfold Direction.read
  split
  all_goals first | exact .ok _ | exact .error trivial

theorem refuses_behavior (b : String) : RefusesText (Behavior.read b) := by
  unfold Behavior.read
  split
  all_goals first | exact .ok _ | exact .error trivial

theorem refuses_motor (m : String) : RefusesText (Motor.read m) := by
  unfold Motor.read
  split
  all_goals first | exact .ok _ | exact .error trivial

theorem refuses_readHall (f d : String) : RefusesText (readHall f d) :=
  (refuses_readFloor f).bind fun _ => (refuses_direction d).bind fun _ => .ok _

theorem refuses_readCab (f : String) : RefusesText (readCab self f) := (refuses_readFloor f).bind fun _ => .ok _

theorem refuses_readState (f b m : String) : RefusesText (readState f b m) :=
  (refuses_readFloor f).bind fun _ => (refuses_behavior b).bind fun _ => (refuses_motor m).bind fun _ => .ok _

/-- Words that are no command are refused before any floor is compared. -/
theorem refuses_ofWords (ws : List String) : RefusesText (ofWords self line ws) := by
  unfold ofWords
  split
  · exact (refuses_readHall _ _).bind fun _ => .ok _
  · exact (refuses_readCab _).bind fun _ => .ok _
  · exact (refuses_readHall _ _).bind fun _ => .ok _
  · exact (refuses_readCab _).bind fun _ => .ok _
  · exact (refuses_readState _ _ _).bind fun _ => .ok _
  · exact .ok _
  · exact .ok _
  · exact .error trivial

/-! ### Reading lines -/

/-- The command is about no floor or about one of the first `numFloors`. -/
def Served (numFloors : UInt8) (c : Command) : Prop := ∀ floor ∈ c.floor?, floor < numFloors

/-- The line is the command, given to `self`. -/
def Typed (self : PeerId) (line : String) (c : Command) : Prop :=
  ∃ ws, Blank.Spaced ws line.toList ∧ Denotes self ws c

theorem typed_iff : c.Typed self line ↔ Denotes self (Blank.words line) c := by
  constructor
  · rintro ⟨_,spaced,denotes⟩
    rwa [Blank.words_eq_iff.mpr spaced]
  · intro denotes
    exact ⟨_,Blank.words_eq_iff.mp rfl,denotes⟩

theorem check_eq_ok_iff {u : Unit} : c.check numFloors = .ok u ↔ c.Served numFloors := by
  unfold check Served
  split
  · rename_i none
    simp [none]
  · rename_i floor some
    by_cases served : floor < numFloors <;> simp [some,served]

theorem check_eq_error_iff :
    c.check numFloors = .error e ↔ ∃ floor, c.floor? = some floor ∧ numFloors ≤ floor ∧ e = .floorOutOfRange floor numFloors := by
  unfold check
  split
  · rename_i none
    simp [none]
  · rename_i floor some
    by_cases served : floor < numFloors
    · simp [some,served]
    · simp [some,served,UInt8.not_lt.mp served,eq_comm]

theorem parse_eq_ok_iff : parse line self numFloors = .ok c ↔ c.Typed self line ∧ c.Served numFloors := by
  simp only [parse,bind_eq_ok_iff,ofWords_eq_ok_iff,check_eq_ok_iff,pure,Except.pure,Except.ok.injEq,typed_iff]
  constructor
  · rintro ⟨_,denotes,_,served,rfl⟩
    exact ⟨denotes,served⟩
  · rintro ⟨denotes,served⟩
    exact ⟨c,denotes,(),served,rfl⟩

/-- A line is refused for the way it is written, or because the floor of its command is not served. -/
theorem parse_eq_error_iff : parse line self numFloors = .error e ↔
    ofWords self line (Blank.words line) = .error e ∨
    ∃ (c : Command) (floor : Floor), c.Typed self line ∧ c.floor? = some floor ∧ numFloors ≤ floor ∧ e = .floorOutOfRange floor numFloors := by
  simp only [parse,bind_eq_error_iff,ofWords_eq_ok_iff,check_eq_error_iff,pure,Except.pure,reduceCtorEq,and_false,
    exists_false,or_false,typed_iff,exists_and_left]

/-! ### The line of a command -/

/-- The words of a call. -/
def callWords : Call → List String
  | .hall floor direction => ["hall",toString floor.toNat,direction.text]
  | .cab floor _ => ["cab",toString floor.toNat]

/-- The words of a command, in small letters and without needless signs. -/
def words : Command → List String
  | .press call => callWords call
  | .clear call => "clear" :: callWords call
  | .state s => ["state",toString s.floor.toNat,lowered s.behavior.word,s.motor.word]
  | .fail => ["fail"]
  | .recover => ["recover"]

/-- The command is about no cab call or about one of the car of `self`. -/
def Owned (self : PeerId) : Command → Prop
  | .press call | .clear call => call.concerns self = true
  | .state _ | .fail | .recover => True

theorem written_toString (floor : Floor) : floor.Written (toString floor.toNat) :=
  ⟨Nat.toDigits 10 floor.toNat,numeral_toDigits _,.inl (by simp)⟩

theorem oneOf_self {spellings : List String} {word : String} (listed : word ∈ spellings) : OneOf spellings word :=
  ⟨word,listed,List.forall₂_same.mpr fun _ _ => .inl rfl⟩

theorem named_callWords {call : Call} (own : call.concerns self = true) : call.Named self (callWords call) := by
  cases call with
  | hall floor direction => exact .hall (written_toString floor) (oneOf_self (by cases direction <;> decide))
  | cab floor owner =>
    obtain rfl : owner = self := by simpa [Call.concerns] using own
    exact .cab (written_toString floor)

theorem denotes_words (own : c.Owned self) : Denotes self c.words c := by
  cases c with
  | press call => exact .press (named_callWords own)
  | clear call => exact .clear (named_callWords own)
  | state s =>
    obtain ⟨floor,behavior,motor⟩ := s
    have doing : lowered behavior.word ∈ behavior.spellings := by cases behavior <;> decide +kernel
    exact .state (written_toString floor) (oneOf_self doing) (oneOf_self List.mem_cons_self)
  | fail => exact .fail
  | recover => exact .recover

/-- A line is read as a command exactly if it is that command and its floor is served. It is refused because of
    a floor exactly if it is a command on that floor, which is not served, and as unreadable exactly if it is no
    command. Every command on a served floor that is about no other car is read from each line of its words. -/
theorem reads_exactly (line : String) (self : PeerId) (numFloors : UInt8) :
    (∀ c, parse line self numFloors = .ok c ↔ c.Typed self line ∧ c.Served numFloors) ∧
    (∀ floor bound, parse line self numFloors = .error (.floorOutOfRange floor bound) ↔
      bound = numFloors ∧ ∃ c : Command, c.Typed self line ∧ c.floor? = some floor ∧ numFloors ≤ floor) ∧
    ((∃ e, parse line self numFloors = .error e ∧ e.Unreadable) ↔ ¬ ∃ c : Command, c.Typed self line) ∧
    ∀ c, c.Owned self → c.Served numFloors → Blank.Spaced c.words line.toList → parse line self numFloors = .ok c := by
  refine ⟨fun c => parse_eq_ok_iff,fun floor bound => ?_,?_,fun c own served spaced => ?_⟩
  · rw [parse_eq_error_iff]
    constructor
    · rintro (unreadable | ⟨c,_,typed,about,beyond,same⟩)
      · exact (refuses_ofWords _ _ unreadable).elim
      · cases same
        exact ⟨rfl,c,typed,about,beyond⟩
    · rintro ⟨rfl,c,typed,about,beyond⟩
      exact .inr ⟨c,floor,typed,about,beyond,rfl⟩
  · constructor
    · rintro ⟨e,refused,unreadable⟩ ⟨c,typed⟩
      rcases parse_eq_error_iff.mp refused with early | ⟨_,_,_,_,_,rfl⟩
      · have read : ofWords self line (Blank.words line) = .ok c := ofWords_eq_ok_iff.mpr (typed_iff.mp typed)
        rw [early] at read
        cases read
      · exact unreadable
    · intro none
      cases read : ofWords self line (Blank.words line) with
      | ok c => exact absurd ⟨c,typed_iff.mpr (ofWords_eq_ok_iff.mp read)⟩ none
      | error e => exact ⟨e,parse_eq_error_iff.mpr (.inl read),refuses_ofWords _ e read⟩
  · exact parse_eq_ok_iff.mpr ⟨⟨_,spaced,denotes_words own⟩,served⟩

/-- Blanks of any kind around the words of a command make no difference. -/
theorem clearTwo_read :
    (clear (.cab 2 ⟨7⟩)).Owned ⟨7⟩ ∧ (clear (.cab 2 ⟨7⟩)).Served 4 ∧
    Blank.Spaced (clear (.cab 2 ⟨7⟩)).words "\t clear\u3000cab  2 ".toList ∧
    parse "\t clear\u3000cab  2 " ⟨7⟩ 4 = .ok (.clear (.cab 2 ⟨7⟩)) ∧
    ¬ ∃ c : Command, c.Typed ⟨7⟩ "clear Cab 2" := by
  have own : (clear (.cab 2 ⟨7⟩)).Owned ⟨7⟩ := rfl
  have served : (clear (.cab 2 ⟨7⟩)).Served 4 := by simp [Served,floor?,Call.floor]
  have spaced : Blank.Spaced (clear (.cab 2 ⟨7⟩)).words "\t clear\u3000cab  2 ".toList :=
    Blank.words_eq_iff.mp (by decide +kernel)
  exact ⟨own,served,spaced,(reads_exactly _ ⟨7⟩ 4).2.2.2 _ own served spaced,
    (reads_exactly "clear Cab 2" ⟨7⟩ 4).2.2.1.mp ⟨.unrecognized "clear Cab 2",by rfl,trivial⟩⟩

/-- Small and capital letters, a plus sign and leading zeros. -/
example : parse "state +003 Door_Open STOP" ⟨1⟩ 4 = .ok (.state ⟨3,.doorOpen,.stop⟩) := by decide +kernel

/-- That a floor is not served is said only if nothing else is wrong. -/
example : parse "hall 255 D" ⟨1⟩ 4 = .error (.floorOutOfRange 255 4) ∧
    parse "hall 256 D" ⟨1⟩ 4 = .error (.notAFloor "256") := by decide +kernel

end Command
end ElevatorFleet

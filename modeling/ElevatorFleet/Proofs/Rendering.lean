import ElevatorFleet.Json.Reader
import Mathlib.Tactic.IntervalCases

/-!
# Reading what was rendered

The reader undoes the renderer on every value that needs no escapes and whose numbers are
whole (`read?_render`). Every other token ends with its own last byte, but a number ends only
with the byte after it; so a machine that has read a value is between tokens or still within
the last number, and `Reader.Ready` says that what comes next finds no difference. With it,
reading composes along the text (`Reads.cons`, `Reads.sign`, and `Listing` for whatever has
commas between), and the induction is over the value.
-/
namespace ElevatorFleet.Json
variable {p q t : Progress} {frames : List Frame} {v : Value} {s raw literal : Bytes} {b : UInt8}

/-! ### Values without escapes -/

/-- A whole number without a sign and without a needless zero. -/
def isWhole (literal : Bytes) : Bool :=
  literal ≠ [] && literal.all isDigit && (literal.length = 1 || literal.head? ≠ some 0x30)

/-- The inside of a string that has no escapes, quotes or control characters. -/
def isPlainText (raw : Bytes) : Bool := raw.all fun b => b ≠ 0x22 && b ≠ 0x5C && 0x20 ≤ b

/-- A value whose numbers are whole and whose strings and keys are plain. -/
inductive Value.Plain : Value → Prop where
  | null : Plain .null
  | bool (b : Bool) : Plain (.bool b)
  | number {literal : Bytes} (whole : isWhole literal = true) : Plain (.number literal)
  | string {raw : Bytes} (text : isPlainText raw = true) : Plain (.string raw)
  | array {items : List Value} (plain : ∀ v ∈ items, Plain v) : Plain (.array items)
  | object {members : List (Bytes × Value)} (keys : ∀ m ∈ members, isPlainText m.1 = true)
      (values : ∀ m ∈ members, Plain m.2) : Plain (.object members)

/-! ### What the machine waits for -/

/-- A value has to come, for the frames. -/
def Progress.AwaitsValue (p : Progress) (frames : List Frame) : Prop :=
  p = .within .value frames ∨ p = .within .valueOrEnd frames

/-- A key has to come, for an object that holds `before` already. -/
def Progress.AwaitsKey (p : Progress) (before : List (Bytes × Value)) (frames : List Frame) : Prop :=
  p = .within .key (.members before :: frames) ∨ p = .within .keyOrEnd (.members before :: frames)

theorem Progress.AwaitsValue.take (awaits : p.AwaitsValue frames) (token : Token) (opens : token ≠ .closeArray) :
    p.take token = Progress.startValue frames token := by
  rcases awaits with rfl | rfl
  · rfl
  · unfold Progress.take
    split <;> simp_all

theorem Progress.AwaitsKey.take {before : List (Bytes × Value)} (awaits : p.AwaitsKey before frames) (raw : Bytes) :
    p.take (.string raw) = some (.within .colon (.member before raw :: frames)) := by
  rcases awaits with rfl | rfl <;> cases before <;> rfl

namespace Reader

/-- A byte that may follow a value or a key. -/
def isSign (b : UInt8) : Bool := b = 0x2C || b = 0x3A || b = 0x5D || b = 0x7D

/-- Whatever comes next, the machine goes on as from between two tokens at `p`. -/
structure Ready (r : Reader) (p : Progress) : Prop where
  step : ∀ b, isSign b = true → r.step b = between p b
  finish : ∀ v, p = .complete v → r.finish? = some v

theorem ready_blank (p : Progress) : Ready ⟨.blank,p⟩ p := by
  refine ⟨fun _ _ => rfl,?_⟩
  rintro v rfl
  rfl

theorem ready_number {before : Bytes} {part : NumberPart} (ends : part.isEnd = true)
    (closed : ∀ b, isSign b = true → part.next? b = none)
    (taken : p.take (.leaf (.number before.reverse)) = some q) : Ready ⟨.number before part,p⟩ q := by
  refine ⟨fun b sign => ?_,?_⟩
  · simp only [step,closed b sign,ends,taken,if_true,Option.bind_some]
  · rintro v rfl
    simp only [finish?,ends,taken,if_true]

theorem token_eq {token : Token} (taken : p.take token = some q) : Reader.token p token = some ⟨.blank,q⟩ := by
  rw [Reader.token,taken]
  rfl

end Reader

/-! ### Reading a text -/

/-- The text takes the machine from between two tokens at `p` to `q`. -/
def Reads (p : Progress) (s : Bytes) (q : Progress) : Prop :=
  ∃ r, s.foldlM Reader.step ⟨.blank,p⟩ = some r ∧ r.Ready q

namespace Reads

theorem nil (p : Progress) : Reads p [] p := ⟨_,rfl,Reader.ready_blank p⟩

theorem cons (first : Reader.between p b = some ⟨.blank,q⟩) (rest : Reads q s t) : Reads p (b :: s) t := by
  obtain ⟨r,run,ready⟩ := rest
  refine ⟨r,?_,ready⟩
  have stepped : Reader.step ⟨.blank,p⟩ b = some ⟨.blank,q⟩ := first
  rw [List.foldlM_cons,stepped]
  exact run

/-- A sign ends what came before, also a number. -/
theorem sign {rest : Bytes} {next : Progress} (before : Reads p s q) (sign : Reader.isSign b = true)
    (taken : Reader.between q b = some ⟨.blank,next⟩) (after : Reads next rest t) : Reads p (s ++ b :: rest) t := by
  obtain ⟨r,run,ready⟩ := before
  obtain ⟨last,goes_on,done⟩ := after
  refine ⟨last,?_,done⟩
  rw [List.foldlM_append,run]
  show (b :: rest).foldlM Reader.step r = some last
  rw [List.foldlM_cons,ready.step b sign,taken]
  exact goes_on

end Reads

theorem foldlM_lexeme (lexeme : Bytes → Lexeme)
    (each : ∀ b ∈ s, ∀ before, Reader.step ⟨lexeme before,p⟩ b = some ⟨lexeme (b :: before),p⟩) (before : Bytes) :
    s.foldlM Reader.step ⟨lexeme before,p⟩ = some ⟨lexeme (s.reverse ++ before),p⟩ := by
  induction s generalizing before with
  | nil => rfl
  | cons b rest ih =>
    rw [List.foldlM_cons,each b List.mem_cons_self before]
    refine (ih (fun c listed => each c (List.mem_cons_of_mem b listed)) (b :: before)).trans ?_
    rw [List.reverse_cons,List.append_assoc]
    rfl

/-! ### Strings -/

theorem step_text (plain : isPlainText raw = true) (listed : b ∈ raw) (before : Bytes) :
    Reader.step ⟨.string before,p⟩ b = some ⟨.string (b :: before),p⟩ := by
  have byte := List.all_eq_true.mp plain b listed
  simp only [Bool.and_eq_true,decide_eq_true_eq] at byte
  obtain ⟨⟨quote,slash⟩,printable⟩ := byte
  simp only [Reader.step,if_neg quote,if_neg slash,if_neg (UInt8.not_lt.mpr printable)]

theorem reads_quoted (plain : isPlainText raw = true) (taken : p.take (.string raw) = some q) :
    Reads p (quoted raw) q := by
  refine ⟨_,?_,Reader.ready_blank q⟩
  have opened : (quoted raw).foldlM Reader.step ⟨.blank,p⟩ = (raw ++ [0x22]).foldlM Reader.step ⟨.string [],p⟩ := rfl
  have closed : Reader.step ⟨.string raw.reverse,p⟩ 0x22 = some ⟨.blank,q⟩ := by
    refine Reader.token_eq ?_
    rw [List.reverse_reverse]
    exact taken
  rw [opened,List.foldlM_append,foldlM_lexeme .string fun _ listed => step_text plain listed,List.append_nil]
  show [0x22].foldlM Reader.step ⟨.string raw.reverse,p⟩ = some ⟨.blank,q⟩
  rw [List.foldlM_cons,closed]
  rfl

/-! ### Numbers -/

theorem exists_of_isDigit (digit : isDigit b = true) : ∃ d < 10, b = UInt8.ofNat (0x30 + d) := by
  simp only [isDigit,Bool.and_eq_true,decide_eq_true_eq,UInt8.le_iff_toNat_le] at digit
  have low : 0x30 ≤ b.toNat := digit.1
  have high : b.toNat ≤ 0x39 := digit.2
  refine ⟨b.toNat - 0x30,by omega,?_⟩
  rw [Nat.add_sub_cancel' low,UInt8.ofNat_toNat]

theorem between_digit (digit : isDigit b = true) (nonzero : b ≠ 0x30) (p : Progress) :
    Reader.between p b = some ⟨.number [b] .whole,p⟩ := by
  obtain ⟨d,small,rfl⟩ := exists_of_isDigit digit
  interval_cases d
  · exact absurd rfl nonzero
  all_goals rfl

theorem step_digit (digit : isDigit b = true) (before : Bytes) :
    Reader.step ⟨.number before .whole,p⟩ b = some ⟨.number (b :: before) .whole,p⟩ := by
  simp only [Reader.step,NumberPart.next?,digit,if_true]

theorem next?_of_isSign (sign : Reader.isSign b = true) {part : NumberPart} (whole : part = .zero ∨ part = .whole) :
    part.next? b = none := by
  simp only [Reader.isSign,Bool.or_eq_true,decide_eq_true_eq] at sign
  rcases sign with ((rfl | rfl) | rfl) | rfl <;> rcases whole with rfl | rfl <;> rfl

theorem reads_whole (whole : isWhole literal = true) (taken : p.take (.leaf (.number literal)) = some q) :
    Reads p literal q := by
  cases literal with
  | nil => simp [isWhole] at whole
  | cons b rest =>
    simp only [isWhole,List.all_cons,List.length_cons,List.head?_cons,Bool.and_eq_true,Bool.or_eq_true,
      decide_eq_true_eq] at whole
    obtain ⟨⟨-,digit,digits⟩,shortest⟩ := whole
    by_cases zero : b = 0x30
    · subst zero
      have single : rest = [] := by
        rcases shortest with alone | nonzero
        · exact List.length_eq_zero_iff.mp (by omega)
        · simp at nonzero
      subst single
      exact ⟨⟨.number [0x30] .zero,p⟩,rfl,
        Reader.ready_number rfl (fun b sign => next?_of_isSign sign (.inl rfl)) taken⟩
    · refine ⟨⟨.number (rest.reverse ++ [b]) .whole,p⟩,?_,
        Reader.ready_number rfl (fun b sign => next?_of_isSign sign (.inr rfl)) ?_⟩
      · have stepped : Reader.step ⟨.blank,p⟩ b = some ⟨.number [b] .whole,p⟩ := between_digit digit zero p
        rw [List.foldlM_cons,stepped]
        exact foldlM_lexeme (.number · .whole) (fun c listed => step_digit (List.all_eq_true.mp digits c listed)) [b]
      · rw [← List.reverse_cons,List.reverse_reverse]
        exact taken

/-! ### Arrays and objects -/

/-- How the machine goes through elements with commas between them: where it waits for the next one
    when some were read, in reverse, and where it is after them. -/
structure Listing {α : Type} (text : α → Bytes) (elements : List α) (waits : List α → Progress → Prop)
    (after : List α → Progress) : Prop where
  element : ∀ a ∈ elements, ∀ before p, waits before p → Reads p (text a) (after (a :: before))
  comma : ∀ before, ∃ p, Reader.between (after before) 0x2C = some ⟨.blank,p⟩ ∧ waits before p

namespace Listing
variable {α : Type} {text : α → Bytes} {elements : List α} {waits : List α → Progress → Prop} {after : List α → Progress}

theorem reads (listing : Listing text elements waits after) (nonempty : elements ≠ []) {before : List α}
    (waiting : waits before p) : Reads p (commaSeparated (elements.map text)) (after (elements.reverse ++ before)) := by
  induction elements generalizing p before with
  | nil => exact absurd rfl nonempty
  | cons a rest ih =>
    have first := listing.element a List.mem_cons_self before p waiting
    cases rest with
    | nil => exact first
    | cons next rest =>
      obtain ⟨goes_on,taken,waiting⟩ := listing.comma (a :: before)
      have others := ih ⟨fun b listed => listing.element b (List.mem_cons_of_mem a listed),listing.comma⟩
        (List.cons_ne_nil next rest) waiting
      rw [List.reverse_cons,List.append_assoc]
      exact first.sign rfl taken others

theorem bracketed (listing : Listing text elements waits after) {opening closing : UInt8} {start : Progress}
    (sign : Reader.isSign closing = true) (opened : Reader.between p opening = some ⟨.blank,start⟩)
    (waiting : waits [] start) (empty : elements = [] → Reader.between start closing = some ⟨.blank,q⟩)
    (closed : Reader.between (after elements.reverse) closing = some ⟨.blank,q⟩) :
    Reads p (opening :: commaSeparated (elements.map text) ++ [closing]) q := by
  refine .cons opened ?_
  by_cases none : elements = []
  · subst none
    exact .cons (empty rfl) (.nil q)
  · have inside := listing.reads none waiting
    rw [List.append_nil] at inside
    exact inside.sign sign closed (.nil q)

end Listing

/-- Wherever a value may stand, its text puts it there. -/
def Value.IsRead (v : Value) : Prop :=
  ∀ ⦃p q : Progress⦄ ⦃frames : List Frame⦄, p.AwaitsValue frames → Progress.put v frames = some q → Reads p v.render q

theorem renderItems_eq (items : List Value) : renderItems items = items.map Value.render := by
  induction items with
  | nil => rfl
  | cons v rest ih => rw [renderItems,ih,List.map_cons]

theorem renderMembers_eq (members : List (Bytes × Value)) :
    renderMembers members = members.map fun m => quoted m.1 ++ 0x3A :: m.2.render := by
  induction members with
  | nil => rfl
  | cons m rest ih => rw [renderMembers,ih,List.map_cons]

theorem isRead_array {items : List Value} (each : ∀ v ∈ items, v.IsRead) : (Value.array items).IsRead := by
  intro p q frames awaits put
  have listing : Listing Value.render items (fun before p => p.AwaitsValue (.items before :: frames))
      fun before => .within .commaOrEnd (.items before :: frames) :=
    ⟨fun v listed _ _ waiting => each v listed waiting rfl,fun _ => ⟨_,rfl,.inl rfl⟩⟩
  rw [Value.render,renderItems_eq]
  refine listing.bracketed rfl (Reader.token_eq (awaits.take _ nofun)) (.inr rfl) ?_ (Reader.token_eq ?_)
  · rintro rfl
    exact Reader.token_eq put
  · rw [Progress.take,List.reverse_reverse]
    exact put

theorem isRead_object {members : List (Bytes × Value)} (keys : ∀ m ∈ members, isPlainText m.1 = true)
    (each : ∀ m ∈ members, m.2.IsRead) : (Value.object members).IsRead := by
  intro p q frames awaits put
  have listing : Listing (fun m => quoted m.1 ++ 0x3A :: m.2.render) members
      (fun before p => p.AwaitsKey before frames) fun before => .within .commaOrEnd (.members before :: frames) := by
    refine ⟨fun m listed before p waiting => ?_,fun _ => ⟨_,rfl,.inl rfl⟩⟩
    have named := reads_quoted (keys m listed) (waiting.take m.1)
    have colon : Reader.between (.within .colon (.member before m.1 :: frames)) 0x3A =
        some ⟨.blank,.within .value (.member before m.1 :: frames)⟩ := rfl
    exact named.sign rfl colon (each m listed (.inl rfl) rfl)
  rw [Value.render,renderMembers_eq]
  refine listing.bracketed rfl (Reader.token_eq (awaits.take _ nofun)) (.inr rfl) ?_ (Reader.token_eq ?_)
  · rintro rfl
    exact Reader.token_eq put
  · rw [Progress.take,List.reverse_reverse]
    exact put

theorem isRead_word (spelled : ∀ p, v.render.foldlM Reader.step ⟨.blank,p⟩ = Reader.token p (.leaf v) >>= pure) :
    v.IsRead := by
  intro p q frames awaits put
  have taken : p.take (.leaf v) = some q := (awaits.take (.leaf v) nofun).trans put
  refine ⟨_,?_,Reader.ready_blank q⟩
  rw [spelled p,bind_pure,Reader.token_eq taken]

theorem Value.Plain.isRead (plain : v.Plain) : v.IsRead := by
  induction plain with
  | null => exact isRead_word fun _ => rfl
  | bool b => cases b <;> exact isRead_word fun _ => rfl
  | number whole =>
    intro p q frames awaits put
    exact reads_whole whole ((awaits.take (.leaf _) nofun).trans put)
  | string text =>
    intro p q frames awaits put
    exact reads_quoted text ((awaits.take (.string _) nofun).trans put)
  | array _ ih => exact isRead_array ih
  | object keys _ ih => exact isRead_object keys ih

/-- What was rendered is read back. -/
theorem read?_render (plain : v.Plain) : read? v.render = some v := by
  obtain ⟨r,run,ready⟩ := plain.isRead (.inl rfl) (rfl : Progress.put v [] = some (.complete v))
  have finished := ready.finish v rfl
  show (v.render.foldlM Reader.step ⟨.blank,.within .value []⟩).bind Reader.finish? = some v
  rw [run]
  exact finished

end ElevatorFleet.Json

import ElevatorFleet.Text.Blank

/-!
# Words and the blanks between them

A text is spaced out from some words if it has them in order, with blanks between two words and any blanks
around them (`Blank.Spaced`). How many blanks there are, and which, is free, but the words are not: those of
a text are the only ones that it is spaced out from (`Blank.words_eq_iff`).
-/
namespace ElevatorFleet.Blank
variable {gap letters rest s : List Char} {words : List String}

/-- Nothing but blanks, or nothing at all. -/
def IsGap (gap : List Char) : Prop := ∀ c ∈ gap, isBlank c = true

theorem isGap_nil : IsGap [] := nofun

/-- The letters of a word: at least one of them, and no blank. -/
def IsWord (letters : List Char) : Prop := letters ≠ [] ∧ ∀ c ∈ letters, isBlank c = false

/-- Some words in order, with blanks around them. A word ends at a blank or with the text. -/
inductive Spaced : List String → List Char → Prop where
  | gap {gap : List Char} (blank : IsGap gap) : Spaced [] gap
  | word {gap rest : List Char} {word : String} {words : List String} (blank : IsGap gap)
      (solid : IsWord word.toList) (apart : ∀ c ∈ rest.head?, isBlank c = true) (more : Spaced words rest) :
      Spaced (word :: words) (gap ++ word.toList ++ rest)

/-- A blank more in front makes no difference. -/
theorem Spaced.blank {c : Char} (blank : isBlank c = true) (spaced : Spaced words s) : Spaced words (c :: s) := by
  have extended {gap : List Char} (old : IsGap gap) : IsGap (c :: gap) := by simpa [IsGap,blank] using old
  cases spaced with
  | gap old => exact .gap (extended old)
  | word old solid apart more => exact .word (extended old) solid apart more

theorem wordsFrom_gap (blank : IsGap gap) (rest : List Char) : wordsFrom [] (gap ++ rest) = wordsFrom [] rest := by
  induction gap with
  | nil => rfl
  | cons c gap ih =>
    simp only [IsGap,List.forall_mem_cons] at blank
    simpa [wordsFrom,blank.1] using ih blank.2

theorem wordsFrom_letters (solid : ∀ c ∈ letters, isBlank c = false) (begun rest : List Char) :
    wordsFrom begun (letters ++ rest) = wordsFrom (letters.reverse ++ begun) rest := by
  induction letters generalizing begun with
  | nil => rfl
  | cons c letters ih =>
    simp only [List.forall_mem_cons] at solid
    simp [wordsFrom,solid.1,ih solid.2]

/-- At a blank or at the end of the text, what was begun is a word. -/
theorem wordsFrom_end {begun : List Char} (some : begun ≠ []) (apart : ∀ c ∈ rest.head?, isBlank c = true) :
    wordsFrom begun rest = begun.reverse :: wordsFrom [] rest := by
  cases rest with
  | nil => simp [wordsFrom,some]
  | cons c rest =>
    have blank : isBlank c = true := apart c rfl
    simp [wordsFrom,blank,some]

theorem Spaced.wordsFrom (spaced : Spaced words s) : wordsFrom [] s = words.map String.toList := by
  induction spaced with
  | gap blank => simpa [Blank.wordsFrom] using wordsFrom_gap blank []
  | @word gap rest word words blank solid apart _ ih =>
    have begun : word.toList.reverse ++ [] ≠ [] := by simpa using solid.1
    rw [List.append_assoc,wordsFrom_gap blank,wordsFrom_letters solid.2,wordsFrom_end begun apart,ih]
    simp

theorem Spaced.first {begun : List Char} (some : begun ≠ []) (solid : ∀ c ∈ begun, isBlank c = false)
    (apart : ∀ c ∈ rest.head?, isBlank c = true) (more : Spaced words rest) :
    Spaced (String.ofList begun.reverse :: words) (begun.reverse ++ rest) := by
  have letters : IsWord (String.ofList begun.reverse).toList := by simpa [IsWord,some] using solid
  simpa using Spaced.word isGap_nil letters apart more

/-- The letters that were begun and the rest of the text are spaced out from the words read from there. -/
theorem spaced_wordsFrom {begun : List Char} (solid : ∀ c ∈ begun, isBlank c = false) (s : List Char) :
    Spaced ((wordsFrom begun s).map String.ofList) (begun.reverse ++ s) := by
  induction s generalizing begun with
  | nil =>
    have nothing : Spaced [] [] := .gap isGap_nil
    by_cases none : begun = []
    · simpa [wordsFrom,none] using nothing
    · simpa [wordsFrom,none] using Spaced.first none solid (by simp) nothing
  | cons c rest ih =>
    by_cases blank : isBlank c = true
    · have more : Spaced ((wordsFrom [] rest).map String.ofList) (c :: rest) := .blank blank (ih (by simp))
      by_cases none : begun = []
      · simpa [wordsFrom,blank,none] using more
      · simpa [wordsFrom,blank,none] using Spaced.first none solid (by simpa using blank) more
    · have longer : ∀ d ∈ c :: begun, isBlank d = false := by simpa [blank] using solid
      simpa [wordsFrom,blank] using ih longer

/-- A line is spaced out from its words, and from no others. -/
theorem words_eq_iff {line : String} : Blank.words line = words ↔ Spaced words line.toList := by
  constructor
  · rintro rfl
    simpa [Blank.words] using @spaced_wordsFrom [] nofun line.toList
  · intro spaced
    rw [Blank.words,spaced.wordsFrom]
    simp

end ElevatorFleet.Blank

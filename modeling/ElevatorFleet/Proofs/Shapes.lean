import ElevatorFleet.Json.Shape
import ElevatorFleet.Proofs.Rendering
import ElevatorFleet.Proofs.Utf8
import Mathlib.Data.List.Nodup

/-!
# Shapes that read back what they write

A shape is faithful if it reads every value back from the JSON that it writes for it, and this
JSON needs no escapes. A shape that is put together from faithful shapes, as the items of a
list, the values of a map or the fields of a record, is faithful again; so a faithful shape is
read back from its text (`parse?_write`).
-/
namespace ElevatorFleet.Json
open Std

/-- Every value is read back from its JSON, which needs no escapes. -/
class Faithful (α : Type) [Shape α] : Prop where
  plain : ∀ a : α, (toJson a).Plain
  back : ∀ a : α, ofJson? (toJson a) = some a

variable {α β γ δ : Type}

/-- What was written is parsed back. -/
theorem parse?_write [Shape α] [Faithful α] (a : α) : parse? (write a) = some a := by
  rw [parse?,write,read?_render (Faithful.plain a)]
  exact Faithful.back a

theorem mapM_map_some {f : α → β} {g : β → Option γ} {h : α → γ} (items : List α)
    (each : ∀ a ∈ items, g (f a) = some (h a)) : (items.map f).mapM g = some (items.map h) := by
  induction items with
  | nil => rfl
  | cons a rest ih =>
    have others := ih fun b listed => each b (List.mem_cons_of_mem a listed)
    rw [List.map_cons,List.mapM_cons,each a List.mem_cons_self,others]
    rfl

/-! ### Numbers -/

theorem digits_single {d : Nat} (small : d < 10) : digits d = [UInt8.ofNat (0x30 + d)] := by
  rw [digits,Nat.toDigits_of_lt_base small,← Nat.toNat_digitChar_of_lt_ten small]
  rfl

theorem digits_snoc {n d : Nat} (positive : 0 < n) (small : d < 10) :
    digits (10 * n + d) = digits n ++ [UInt8.ofNat (0x30 + d)] := by
  rw [← digits_single small,digits,digits,digits,← Nat.toDigits_append_toDigits (by decide) positive small,List.map_append]

theorem digits_ne_nil (n : Nat) : digits n ≠ [] := by
  rw [digits,ne_eq,List.map_eq_nil_iff]
  exact Nat.toDigits_ne_nil

theorem isDigit_ofNat {d : Nat} (small : d < 10) : isDigit (UInt8.ofNat (0x30 + d)) = true := by
  interval_cases d <;> rfl

theorem all_digits (n : Nat) : (digits n).all isDigit = true := by
  induction n using Nat.base_induction 10 (by decide) with
  | single d small =>
    rw [digits_single small,List.all_cons,isDigit_ofNat small]
    rfl
  | digit m d small positive ih =>
    rw [digits_snoc positive small,List.all_append,ih,List.all_cons,isDigit_ofNat small]
    rfl

theorem head_digits {n : Nat} (positive : 0 < n) : (digits n).head? ≠ some 0x30 := by
  induction n using Nat.base_induction 10 (by decide) with
  | single d small =>
    rw [digits_single small]
    interval_cases d <;> decide
  | digit m d small front ih =>
    rw [digits_snoc front small,List.head?_append,List.head?_eq_some_head (digits_ne_nil m),Option.some_or,
      ← List.head?_eq_some_head]
    exact ih front

theorem isWhole_digits (n : Nat) : isWhole (digits n) = true := by
  rcases n.eq_zero_or_pos with rfl | positive
  · rfl
  · simp [isWhole,digits_ne_nil,all_digits,head_digits positive]

theorem natOfDigits_snoc {d : Nat} (small : d < 10) (front : Bytes) :
    natOfDigits (front ++ [UInt8.ofNat (0x30 + d)]) = natOfDigits front * 10 + d := by
  have digit : (UInt8.ofNat (0x30 + d)).toNat = 0x30 + d := by
    rw [UInt8.toNat_ofNat']
    omega
  rw [natOfDigits,List.foldl_append]
  show natOfDigits front * 10 + ((UInt8.ofNat (0x30 + d)).toNat - 0x30) = _
  rw [digit,Nat.add_sub_cancel_left]

theorem natOfDigits_digits (n : Nat) : natOfDigits (digits n) = n := by
  induction n using Nat.base_induction 10 (by decide) with
  | single d small =>
    rw [digits_single small]
    exact (natOfDigits_snoc small []).trans (Nat.zero_add d)
  | digit m d small positive ih => rw [digits_snoc positive small,natOfDigits_snoc small,ih,Nat.mul_comm]

theorem byteOfDigits?_digits (b : UInt8) : byteOfDigits? (digits b.toNat) = some b := by
  have whole := isWhole_digits b.toNat
  have byte : natOfDigits (digits b.toNat) < 256 := by
    rw [natOfDigits_digits]
    exact b.toNat_lt
  show (if (isWhole (digits b.toNat) && decide (natOfDigits (digits b.toNat) < 256)) = true then _ else _) = _
  rw [whole,decide_eq_true byte,natOfDigits_digits,UInt8.ofNat_toNat]
  rfl

theorem isPlainText_digits (n : Nat) : isPlainText (digits n) = true := by
  rw [isPlainText,List.all_eq_true]
  intro b listed
  have digit : isDigit b = true := List.all_eq_true.mp (all_digits n) b listed
  obtain ⟨d,small,rfl⟩ := exists_of_isDigit digit
  interval_cases d <;> rfl

instance : Faithful UInt8 where
  plain n := .number (isWhole_digits n.toNat)
  back := byteOfDigits?_digits

instance : Faithful PeerId where
  plain p := Faithful.plain p.num
  back p := congrArg (Option.map PeerId.mk) (Faithful.back p.num)

/-! ### Words -/

theorem unescapeOnto_plain {raw : Bytes} (plain : isPlainText raw = true) (before : Bytes) :
    unescapeOnto before raw = some (before.reverse ++ raw) := by
  induction raw generalizing before with
  | nil => rw [unescapeOnto,List.append_nil]
  | cons b rest ih =>
    simp only [isPlainText,List.all_cons,Bool.and_eq_true,decide_eq_true_eq] at plain
    rw [unescapeOnto,ih plain.2,List.reverse_cons,List.append_assoc]
    · rfl
    all_goals simp [plain.1.1.2]

theorem text?_utf8 {s : String} (plain : isPlainText (utf8 s) = true) : text? (utf8 s) = some s := by
  rw [text?,unescapeOnto_plain plain]
  show (Utf8.decode (utf8 s)).toOption = some s
  rw [Utf8.decode_utf8]
  rfl

theorem named?_ofWord {all : List α} {name : α → String} {a : α} (listed : a ∈ all) (distinct : (all.map name).Nodup)
    (plain : isPlainText (utf8 (name a)) = true) : named? all name (ofWord (name a)) = some a := by
  have read : word? (ofWord (name a)) = some (name a) := text?_utf8 plain
  rw [named?,read]
  show all.find? (fun b => name b = name a) = some a
  cases found : all.find? fun b => name b = name a with
  | none => exact absurd (decide_eq_true rfl) (List.find?_eq_none.mp found a listed)
  | some b =>
    have named : name b = name a := by simpa using List.find?_some found
    exact congrArg some (List.inj_on_of_nodup_map distinct (List.mem_of_find?_eq_some found) listed named)

/-- A type whose values go by names of their own is faithful. -/
theorem faithful_words [Shape α] {all : List α} {name : α → String} (writes : ∀ a : α, toJson a = ofWord (name a))
    (reads : (ofJson? : Value → Option α) = named? all name) (listed : ∀ a, a ∈ all) (distinct : (all.map name).Nodup)
    (plain : ∀ a ∈ all, isPlainText (utf8 (name a)) = true) : Faithful α where
  plain a := by
    rw [writes]
    exact .string (plain a (listed a))
  back a := by
    rw [writes,reads]
    exact named?_ofWord (listed a) distinct (plain a (listed a))

/-! ### Lists and maps -/

instance [Shape α] [Faithful α] : Faithful (List α) where
  plain items := .array fun v listed => by
    obtain ⟨a,-,rfl⟩ := List.mem_map.mp listed
    exact Faithful.plain a
  back items := by
    refine (mapM_map_some (h := id) items fun a _ => Faithful.back a).trans ?_
    rw [List.map_id]

theorem ofList_toList (map : PeerMap α) : (ExtTreeMap.ofList map.toList : PeerMap α) = map := by
  refine ExtTreeMap.ext_getElem? fun peer => Option.ext fun value => ?_
  rw [PeerMap.getElem?_ofList ExtTreeMap.distinct_keys_toList]
  exact ExtTreeMap.mem_toList_iff_getElem?_eq_some

instance [Shape α] [Faithful α] : Faithful (PeerMap α) where
  plain map := by
    refine .object (fun m listed => ?_) (fun m listed => ?_)
    · obtain ⟨entry,-,rfl⟩ := List.mem_map.mp listed
      exact isPlainText_digits entry.1.num.toNat
    · obtain ⟨entry,-,rfl⟩ := List.mem_map.mp listed
      exact Faithful.plain entry.2
  back map := by
    have entries : (map.toList.map fun e => (digits e.1.num.toNat,toJson e.2)).mapM entry? = some (map.toList.map id) := by
      refine mapM_map_some map.toList fun entry _ => ?_
      simp only [ entry?,byteOfDigits?_digits,Faithful.back]
      rfl
    show ((map.toList.map fun e => (digits e.1.num.toNat,toJson e.2)).mapM entry?).map
      (fun entries => (ExtTreeMap.ofList entries : PeerMap α)) = some map
    rw [entries,List.map_id]
    exact congrArg some (ofList_toList map)

/-! ### Records -/

theorem only?_of_mem {members : List (String × Value)} (distinct : (members.map Prod.fst).Nodup) {key : String}
    {value : Value} (listed : (key,value) ∈ members) : only? members key = some value := by
  have single : members.filter (fun m => m.1 = key) = [(key,value)] := by
    induction members with
    | nil => nomatch listed
    | cons m rest ih =>
      rw [List.map_cons,List.nodup_cons] at distinct
      rcases List.mem_cons.mp listed with rfl | later
      · have others : rest.filter (fun m => m.1 = key) = [] := by
          refine List.filter_eq_nil_iff.mpr fun m inside same => distinct.1 ?_
          exact List.mem_map.mpr ⟨m,inside,of_decide_eq_true same⟩
        rw [List.filter_cons,if_pos (decide_eq_true rfl),others]
      · have other : m.1 ≠ key := fun same => distinct.1 (same ▸ List.mem_map_of_mem later)
        rw [List.filter_cons_of_neg (by simpa using other)]
        exact ih distinct.2 later
  rw [only?,single]

theorem plain_record {fields : List (String × Value)} (names : ∀ f ∈ fields, isPlainText (utf8 f.1) = true)
    (values : ∀ f ∈ fields, f.2.Plain) : (record fields).Plain := by
  refine .object (fun m listed => ?_) (fun m listed => ?_)
  · obtain ⟨field,inside,rfl⟩ := List.mem_map.mp listed
    exact names field inside
  · obtain ⟨field,inside,rfl⟩ := List.mem_map.mp listed
    exact values field inside

theorem fields?_record {fields : List (String × Value)} (names : ∀ f ∈ fields, isPlainText (utf8 f.1) = true)
    (distinct : (fields.map Prod.fst).Nodup) :
    fields? (fields.map Prod.fst) (record fields) = some (fields.map Prod.snd) := by
  have keys : (fields.map fun f => (utf8 f.1,f.2)).mapM readKey = some (fields.map id) := by
    refine mapM_map_some fields fun field listed => ?_
    rw [readKey,text?_utf8 (names field listed)]
    rfl
  have values : (fields.map Prod.fst).mapM (only? fields) = some (fields.map Prod.snd) :=
    mapM_map_some fields fun field listed => only?_of_mem distinct listed
  show ((fields.map fun f => (utf8 f.1,f.2)).mapM readKey >>= fun members =>
    (fields.map Prod.fst).mapM (only? members)) = some (fields.map Prod.snd)
  rw [keys,List.map_id]
  exact values

variable [Shape α] [Shape β] [Shape γ] [Faithful α] [Faithful β] [Faithful γ] {first second third : String}

theorem plain_record_three (names : ∀ name ∈ [first,second,third], isPlainText (utf8 name) = true) (a : α) (b : β) (c : γ) :
    (record [(first,toJson a),(second,toJson b),(third,toJson c)]).Plain := by
  refine plain_record (fun f listed => names f.1 ?_) (fun f listed => ?_)
  · exact List.mem_map_of_mem listed
  · simp only [List.mem_cons,List.not_mem_nil,or_false] at listed
    rcases listed with rfl | rfl | rfl
    · exact Faithful.plain a
    · exact Faithful.plain b
    · exact Faithful.plain c

theorem three?_record (names : ∀ name ∈ [first,second,third], isPlainText (utf8 name) = true)
    (distinct : [first,second,third].Nodup) (make : α → β → γ → δ) (a : α) (b : β) (c : γ) :
    three? first second third make (record [(first,toJson a),(second,toJson b),(third,toJson c)]) = some (make a b c) := by
  have values : fields? [first,second,third] (record [(first,toJson a),(second,toJson b),(third,toJson c)]) =
      some [toJson a,toJson b,toJson c] :=
    fields?_record (fun f listed => names f.1 (List.mem_map_of_mem listed)) distinct
  simp only [three?,values,Faithful.back]
  rfl

end ElevatorFleet.Json

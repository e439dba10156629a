import Mathlib.Algebra.BigOperators.Group.List.Basic
import Mathlib.Algebra.Ring.Nat
import MessagePack.Command.Statistics

/-!
The report on the messages of a file. It has a line for every total and one for every kind that
there is a node of.
-/

namespace MessagePack

namespace Command

/-- A number with a comma behind every thousand of it. -/
def thousands (n : Nat) : String :=
  if n < 1000 then
    toString n
  else
    thousands (n / 1000) ++ "," ++ toString (n / 100 % 10) ++ toString (n / 10 % 10) ++
      toString (n % 10)

def alignedRight (width : Nat) (text : String) : String :=
  String.ofList (text.toList.leftpad width ' ')

/-- The name of a kind, as wide as its column. -/
def column : Kind → String
  | .nil => "nil     "
  | .bool => "bool    "
  | .int => "int     "
  | .uint => "uint    "
  | .float => "float   "
  | .double => "double  "
  | .str => "str     "
  | .bin => "bin     "
  | .array => "array   "
  | .map => "map     "
  | .ext => "ext     "

def line (text : String) : String :=
  text ++ "\n"

/-- What is said of the nodes of one kind, given their tags. -/
def tallied (kind : Kind) (tags : List Tag) : String :=
  let payload := (tags.map fun tag => tag.payloadLength?.getD 0).sum
  if tags = [] then
    ""
  else
    line (column kind ++ " " ++ alignedRight 7 (toString tags.length) ++
      if payload = 0 then "" else " " ++ alignedRight 7 (thousands payload) ++ " B")

/-- What is said of a file of so many bytes that holds so many messages, given the tags of their
nodes by kind. -/
def surveyed (file : String) (bytes messages nodes depth : Nat) (tags : Kind → List Tag) :
    String :=
  String.join ([
    "File:       " ++ file,
    "Size:       " ++ thousands bytes ++ " bytes",
    "Messages:   " ++ toString messages,
    "Nodes:      " ++ toString nodes,
    "Max depth:  " ++ toString depth,
    "",
    "Kind       Count   Payload",
    "──────────────────────────"].map line) ++
  String.join ([.nil, .bool, .int, .uint, .float, .double, .str, .bin, .array, .map, .ext].map
    fun kind => tallied kind (tags kind))

end Command

namespace Statistics

open Command

/-! Digits in groups of three. -/

theorem separated_of_short {digits : List Char} (hshort : digits.length ≤ 3) :
    separated digits = digits := by
  induction digits with
  | nil => rfl
  | cons digit digits ih =>
      rw [List.length_cons] at hshort
      have hopen : ¬(digits ≠ [] ∧ digits.length % 3 = 0) := by
        rintro ⟨hsome, hgroup⟩
        have := List.length_pos_iff.mpr hsome
        omega
      rw [separated, if_neg hopen, ih (by omega)]

theorem separated_append {digits : List Char} (hsome : digits ≠ []) (hundreds tens ones : Char) :
    separated (digits ++ [hundreds, tens, ones]) =
      separated digits ++ [',', hundreds, tens, ones] := by
  have hgroup : separated [hundreds, tens, ones] = [hundreds, tens, ones] :=
    separated_of_short (Nat.le_refl 3)
  induction digits with
  | nil => exact absurd rfl hsome
  | cons digit digits ih =>
      by_cases hmore : digits = []
      · subst hmore
        rw [List.singleton_append, separated, if_pos ⟨List.cons_ne_nil _ _, by simp⟩, hgroup]
        rfl
      · have hlength : (digits ++ [hundreds, tens, ones]).length % 3 = digits.length % 3 := by
          rw [List.length_append]
          exact Nat.add_mod_right _ 3
        rw [List.cons_append, separated, separated, hlength, ih hmore]
        simp only [ne_eq, List.append_eq_nil_iff, hmore, false_and, not_false_eq_true, true_and]
        split <;> rfl

theorem toDigits_of_large {n : Nat} (hlarge : 1000 ≤ n) :
    Nat.toDigits 10 n = Nat.toDigits 10 (n / 1000) ++
      [(n / 100 % 10).digitChar, (n / 10 % 10).digitChar, (n % 10).digitChar] := by
  rw [Nat.toDigits_of_base_le (by decide) (by omega : 10 ≤ n),
    Nat.toDigits_of_base_le (by decide) (by omega : 10 ≤ n / 10),
    Nat.toDigits_of_base_le (by decide) (by omega : 10 ≤ n / 10 / 10),
    List.append_assoc, List.append_assoc]
  simp only [Nat.div_div_eq_div_mul]
  rfl

theorem grouped_eq (n : Nat) : grouped n = thousands n := by
  fun_induction thousands n with
  | case1 n hsmall =>
      have hshort : (Nat.toDigits 10 n).length ≤ 3 :=
        (Nat.length_toDigits_le_iff (by decide) (by decide)).mpr hsmall
      rw [grouped, separated_of_short hshort]
      rfl
  | case2 n hlarge ih =>
      have hdigit : ∀ m, toString (m % 10) = String.ofList [(m % 10).digitChar] :=
        fun m => congrArg String.ofList (Nat.toDigits_of_lt_base (Nat.mod_lt m (by decide)))
      rw [← ih, grouped, grouped, toDigits_of_large (Nat.not_lt.mp hlarge),
        separated_append Nat.toDigits_ne_nil, hdigit, hdigit, hdigit]
      simp [← String.toList_inj]

/-! The lines of the report. -/

variable (statistics : Statistics)

theorem padLeft_eq (width : Nat) (text : String) :
    padLeft width text = alignedRight width text := by
  rw [alignedRight, List.leftpad, String.ofList_append, String.ofList_toList]
  rfl

theorem payload_eq_sum (kind : Kind) :
    statistics.payload kind =
      ((statistics.tagsOf kind).map fun tag => tag.payloadLength?.getD 0).sum := by
  rw [payload, List.sum_eq_foldl, List.foldl_map]

theorem padRight_name (kind : Kind) : padRight 8 kind.name = column kind := by
  cases kind <;> decide +kernel

theorem toString_text (text : String) : toString text = text :=
  rfl

theorem row_eq (kind : Kind) :
    String.join ((statistics.row? kind).toList.map line) =
      tallied kind (statistics.tagsOf kind) := by
  have hnone : statistics.count kind = 0 ↔ statistics.tagsOf kind = [] := List.length_eq_zero_iff
  simp only [row?, tallied, ← payload_eq_sum, hnone, padRight_name, padLeft_eq, grouped_eq,
    toString_text]
  split
  · rfl
  · split <;> simp [count, line, String.append_assoc]

theorem join_rows (kinds : List Kind) :
    String.join ((kinds.filterMap statistics.row?).map line) =
      String.join (kinds.map fun kind => tallied kind (statistics.tagsOf kind)) := by
  induction kinds with
  | nil => rfl
  | cons kind kinds ih =>
      rw [List.map_cons, String.join_cons, ← row_eq, ← ih, List.filterMap_cons]
      cases statistics.row? kind <;> simp

theorem title_eq : padRight 8 "Kind" ++ " " ++ padLeft 7 "Count" ++ " " ++ padLeft 9 "Payload" =
    "Kind       Count   Payload" := by
  decide +kernel

theorem rule_eq : String.ofList (List.replicate 26 '─') = "──────────────────────────" := by
  decide +kernel

/-- The report says what there is to say of the file, and nothing else. -/
theorem report_eq (file : String) (bytes : Nat) :
    statistics.report file bytes =
      surveyed file bytes statistics.messages statistics.nodes statistics.depth
        statistics.tagsOf := by
  have hreport : statistics.report file bytes =
      String.join (([
        "File:       " ++ file,
        "Size:       " ++ grouped bytes ++ " bytes",
        "Messages:   " ++ toString statistics.messages,
        "Nodes:      " ++ toString statistics.nodes,
        "Max depth:  " ++ toString statistics.depth,
        "",
        padRight 8 "Kind" ++ " " ++ padLeft 7 "Count" ++ " " ++ padLeft 9 "Payload",
        String.ofList (List.replicate 26 '─')] ++
          Kind.all.filterMap statistics.row?).map line) := rfl
  rw [hreport, List.map_append, String.join_append, join_rows, title_eq, rule_eq, grouped_eq]
  rfl

end Statistics
end MessagePack

import Mathlib.Data.List.Infix

/-!
# Files of terminated records

A log that is appended to holds records, each with a terminator behind it. Whoever reads the file
while it is written, or after a crash, may find it cut off anywhere. `completed` reads the
records that have their terminator and leaves the rest.

* `completed_terminate`: what was written is read back, with or without a torn record behind.
* `completed_of_truncated`: wherever the file is cut off, the records that are read are the first
  ones that were written.
-/

set_option autoImplicit false

namespace Lib

variable {α : Type}

/-- The records, each with the terminator behind it. -/
def terminate (sep : α) (records : List (List α)) : List α :=
  records.flatMap fun record => record ++ [sep]

/-- The records in front of the terminators. What is behind the last one is not read. -/
def completed [BEq α] (sep : α) (text : List α) : List (List α) := (text.splitOn sep).dropLast

/-- The equations of `terminate`, for no record and for a first one. -/
@[simp] theorem terminate_nil (sep : α) : terminate sep [] = [] := rfl

@[simp] theorem terminate_cons (sep : α) (record : List α) (records : List (List α)) :
    terminate sep (record :: records) = record ++ sep :: terminate sep records := by
  simp [terminate]

/-- A record at the end adds its text and the separator. -/
theorem terminate_concat (sep : α) (records : List (List α)) (record : List α) :
    terminate sep (records ++ [record]) = terminate sep records ++ (record ++ [sep]) := by
  simp [terminate]

section
variable [BEq α] [LawfulBEq α] {sep : α} {record rest text : List α} {records : List (List α)}

/-- Without a terminator there is no record. -/
theorem completed_of_not_mem (h : sep ∉ text) : completed sep text = [] := by
  rw [completed, List.splitOn_eq_singleton h]
  rfl

/-- The text up to the first separator is the first complete record. -/
theorem completed_cons (h : sep ∉ record) (text : List α) :
    completed sep (record ++ sep :: text) = record :: completed sep text := by
  have hsplit : (record ++ sep :: text).splitOn sep = record :: text.splitOn sep := by
    rw [List.splitOn_append_cons_self, List.splitOn_eq_singleton h]
    rfl
  rw [completed, hsplit, List.dropLast_cons_of_ne_nil (List.splitOn_ne_nil sep text), completed]

/-- Records without a terminator inside are read back, whatever torn record follows. -/
theorem completed_terminate (hrecords : ∀ record ∈ records, sep ∉ record) (hrest : sep ∉ rest) :
    completed sep (terminate sep records ++ rest) = records := by
  induction records with
  | nil => exact completed_of_not_mem hrest
  | cons record records ih =>
    have hlater := ih fun r hr => hrecords r (List.mem_cons_of_mem record hr)
    rw [terminate_cons, List.append_assoc, List.cons_append,
      completed_cons (hrecords record List.mem_cons_self), hlater]

/-- A file that is cut off anywhere holds the first records. -/
theorem completed_of_truncated (hrecords : ∀ record ∈ records, sep ∉ record) (hrest : sep ∉ rest)
    (h : text <+: terminate sep records ++ rest) : completed sep text <+: records := by
  induction records generalizing text with
  | nil =>
    have hnone : sep ∉ text := fun hmem => hrest (h.subset hmem)
    rw [completed_of_not_mem hnone]
  | cons record records ih =>
    have hrecord := hrecords record List.mem_cons_self
    rw [terminate_cons, List.append_assoc, List.cons_append, List.append_cons] at h
    have hfront : record ++ [sep] <+: record ++ [sep] ++ (terminate sep records ++ rest) :=
      List.prefix_append _ _
    rcases List.prefix_or_prefix_of_prefix h hfront with hcut | ⟨text, rfl⟩
    · rcases List.prefix_concat_iff.mp hcut with rfl | hcut
      · -- The cut is behind the first terminator.
        rw [completed_cons hrecord []]
        exact List.cons_prefix_cons.mpr ⟨rfl, List.nil_prefix⟩
      · rw [completed_of_not_mem fun hmem => hrecord (hcut.subset hmem)]
        exact List.nil_prefix
    · have hlater := ih (fun r hr => hrecords r (List.mem_cons_of_mem record hr))
        ((List.prefix_append_right_inj _).mp h)
      rw [List.append_assoc, List.singleton_append, completed_cons hrecord]
      exact List.cons_prefix_cons.mpr ⟨rfl, hlater⟩

end

end Lib

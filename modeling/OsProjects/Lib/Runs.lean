import Mathlib.Data.List.TakeWhile

/-!
# Runs — the longest run at the front of a list

A scanner cuts its input into runs of characters of one kind.
-/

namespace OsProjects.Lib

variable {α : Type*} {p : α → Bool} {run rest : List α}

/-- The list does not begin with a `p`. -/
def Stops (p : α → Bool) (rest : List α) : Prop := ∀ a ∈ rest.head?, p a = false

theorem Stops.cons {a : α} (h : p a = false) : Stops p (a :: rest) := by
  intro b hb
  rwa [← Option.some.inj hb]

theorem stops_dropWhile (p : α → Bool) (l : List α) : Stops p (l.dropWhile p) := by
  intro a ha
  have h := List.head?_dropWhile_not p l
  rwa [Option.mem_def.mp ha] at h

theorem takeWhile_run (hrun : ∀ a ∈ run, p a = true) (hrest : Stops p rest) :
    (run ++ rest).takeWhile p = run := by
  rw [List.takeWhile_append_of_pos hrun]
  cases rest with
  | nil => exact List.append_nil run
  | cons a l => rw [List.takeWhile_cons_of_neg (by rw [hrest a rfl]; nofun), List.append_nil]

theorem dropWhile_run (hrun : ∀ a ∈ run, p a = true) (hrest : Stops p rest) :
    (run ++ rest).dropWhile p = rest := by
  rw [List.dropWhile_append_of_pos hrun]
  cases rest with
  | nil => rfl
  | cons a l => exact List.dropWhile_cons_of_neg (by rw [hrest a rfl]; nofun)

end OsProjects.Lib

import Mathlib.Data.List.TakeDrop

/-!
# Delimited text in chunks

A sequence of elements in which one element ends a line, and the ways to cut it
into chunks.

* `lines d xs` — the complete lines, without their ends; `linesFrom` carries the
  text in front along;
* `unfinished d xs` — the text behind the last end;
* `firstLine d chunks` — the first line of a chunked sequence: its text, what follows
  in the chunk that ends it, and the chunks behind that one.
-/

namespace Delimited

variable {α : Type} [DecidableEq α] {d : α}

/-- The complete lines when `text` has been read already. -/
def linesFrom (d : α) : (text : List α) → List α → List (List α)
  | _, [] => []
  | text, x :: xs => if x = d then text :: linesFrom d [] xs else linesFrom d (text ++ [x]) xs

/-- The lines, without their ends. -/
def lines (d : α) (xs : List α) : List (List α) := linesFrom d [] xs

/-- The text behind the last end of a line when `text` has been read already. -/
def unfinishedFrom (d : α) : (text : List α) → List α → List α
  | text, [] => text
  | text, x :: xs => if x = d then unfinishedFrom d [] xs else unfinishedFrom d (text ++ [x]) xs

/-- What stands behind the last end of a line. -/
def unfinished (d : α) (xs : List α) : List α := unfinishedFrom d [] xs

/-- Text without an end of a line is only read. -/
theorem linesFrom_append (ys : List α) : ∀ {xs : List α} (text : List α), d ∉ xs →
    linesFrom d text (xs ++ ys) = linesFrom d (text ++ xs) ys := by
  intro xs
  induction xs with
  | nil =>
    intro text _
    rw [List.nil_append, List.append_nil]
  | cons x xs ih =>
    intro text hxs
    rw [List.mem_cons, not_or] at hxs
    rw [List.cons_append, linesFrom, if_neg (Ne.symm hxs.1), ih _ hxs.2, List.append_assoc,
      List.singleton_append]

/-- Elements that end no line add to the one that has begun. -/
theorem unfinishedFrom_append (ys : List α) : ∀ {xs : List α} (text : List α), d ∉ xs →
    unfinishedFrom d text (xs ++ ys) = unfinishedFrom d (text ++ xs) ys := by
  intro xs
  induction xs with
  | nil =>
    intro text _
    rw [List.nil_append, List.append_nil]
  | cons x xs ih =>
    intro text hxs
    rw [List.mem_cons, not_or] at hxs
    rw [List.cons_append, unfinishedFrom, if_neg (Ne.symm hxs.1), ih _ hxs.2, List.append_assoc,
      List.singleton_append]

/-- The first line of a text. -/
theorem linesFrom_line {xs : List α} (hxs : d ∉ xs) (text ys : List α) :
    linesFrom d text (xs ++ d :: ys) = (text ++ xs) :: linesFrom d [] ys := by
  rw [linesFrom_append _ _ hxs, linesFrom, if_pos rfl]

/-- The end of a line leaves nothing of it. -/
theorem unfinishedFrom_line {xs : List α} (hxs : d ∉ xs) (text ys : List α) :
    unfinishedFrom d text (xs ++ d :: ys) = unfinishedFrom d [] ys := by
  rw [unfinishedFrom_append _ _ hxs, unfinishedFrom, if_pos rfl]

/-- Where no line ends there is none. -/
theorem linesFrom_of_notMem {xs : List α} (hxs : d ∉ xs) (text : List α) :
    linesFrom d text xs = [] := by
  have h := linesFrom_append [] text hxs
  rwa [List.append_nil] at h

/-- All is then unfinished. -/
theorem unfinishedFrom_of_notMem {xs : List α} (hxs : d ∉ xs) (text : List α) :
    unfinishedFrom d text xs = text ++ xs := by
  have h := unfinishedFrom_append [] text hxs
  rwa [List.append_nil] at h

/-! ## Chunks -/

/-- The first line in some chunks: its text, the rest of the chunk that ends it, and
the chunks behind. -/
def firstLine (d : α) : List (List α) → Option (List α × List α × List (List α))
  | [] => none
  | chunk :: chunks =>
    match chunk.idxOf? d with
    | some e => some (chunk.take e, chunk.drop (e + 1), chunks)
    | none => (firstLine d chunks).map fun (x, y, rest) => (chunk ++ x, y, rest)

/-- Where a chunk ends a line. -/
theorem eq_of_idxOf? {chunk : List α} {e : Nat} (h : chunk.idxOf? d = some e) :
    e < chunk.length ∧ chunk = chunk.take e ++ d :: chunk.drop (e + 1) ∧ d ∉ chunk.take e := by
  obtain ⟨hlt, hget, hbefore⟩ := List.idxOf?_eq_some_iff.mp h
  refine ⟨hlt, ?_, fun hmem => ?_⟩
  · rw [← hget, ← List.drop_eq_getElem_cons hlt, List.take_append_drop]
  · obtain ⟨j, hj, heq⟩ := List.mem_iff_getElem.mp hmem
    rw [List.length_take] at hj
    rw [List.getElem_take] at heq
    exact hbefore j (by omega) heq

/-- A first line is missing exactly where none ends. -/
theorem firstLine_eq_none_iff {chunks : List (List α)} :
    firstLine d chunks = none ↔ d ∉ chunks.flatten := by
  induction chunks with
  | nil => simp [firstLine]
  | cons chunk chunks ih =>
    rw [firstLine, List.flatten_cons, List.mem_append, not_or, ← ih]
    split
    · next e he =>
      have hmem : d ∈ chunk := by
        rw [← List.isSome_idxOf?, he]
        rfl
      simp [hmem]
    · next hnone =>
      rw [Option.map_eq_none_iff, and_iff_right (List.idxOf?_eq_none_iff.mp hnone)]

/-- A chunk that ends a line. -/
theorem idxOf?_line {x : List α} (hx : d ∉ x) (y : List α) :
    (x ++ d :: y).idxOf? d = some x.length := by
  refine List.idxOf?_eq_some_iff.mpr ⟨by simp, by simp, fun j hj heq => ?_⟩
  rw [List.getElem_append_left hj] at heq
  exact hx (heq ▸ List.getElem_mem hj)

/-- The first line, from the chunks it is spread over. -/
theorem firstLine_append {last : List α} (hlast : d ∉ last) (y : List α) (rest : List (List α)) :
    ∀ {before : List (List α)}, d ∉ before.flatten →
      firstLine d (before ++ (last ++ d :: y) :: rest) =
        some (before.flatten ++ last, y, rest) := by
  intro before
  induction before with
  | nil =>
    intro _
    rw [List.nil_append, firstLine, idxOf?_line hlast]
    simp
  | cons chunk before ih =>
    intro hbefore
    rw [List.flatten_cons, List.mem_append, not_or] at hbefore
    rw [List.cons_append, firstLine, List.idxOf?_eq_none_iff.mpr hbefore.1]
    simp only [ih hbefore.2, Option.map_some, List.flatten_cons, List.append_assoc]

/-- **The first line**, and what is left of the chunks. -/
theorem firstLine_spec {chunks : List (List α)} {x y : List α} {rest : List (List α)}
    (h : firstLine d chunks = some (x, y, rest)) :
    d ∉ x ∧ ∃ before last, d ∉ before.flatten ∧ d ∉ last ∧
      chunks = before ++ (last ++ d :: y) :: rest ∧ x = before.flatten ++ last := by
  induction chunks generalizing x with
  | nil => cases h
  | cons chunk chunks ih =>
    rw [firstLine] at h
    split at h
    · next e he =>
      obtain ⟨-, hchunk, hnot⟩ := eq_of_idxOf? he
      cases h
      exact ⟨hnot, [], chunk.take e, by simp, hnot, by rw [List.nil_append, ← hchunk], rfl⟩
    · next hnone =>
      obtain ⟨⟨x', y', rest'⟩, hfirst, heq⟩ := Option.map_eq_some_iff.mp h
      cases heq
      have hchunk := List.idxOf?_eq_none_iff.mp hnone
      obtain ⟨hx', before, last, hbefore, hlast, rfl, rfl⟩ := ih hfirst
      refine ⟨?_, chunk :: before, last, ?_, hlast, rfl, ?_⟩
      · rw [List.mem_append, not_or]
        exact ⟨hchunk, hx'⟩
      · rw [List.flatten_cons, List.mem_append, not_or]
        exact ⟨hchunk, hbefore⟩
      · rw [List.flatten_cons, List.append_assoc]

end Delimited

import Mathlib
import Ia32.Text.Lines

/-!
# Replacing lines of a text

A text is its lines with their endings. A line can be replaced by other text that has no line
feed and does not end in a carriage return; the other lines are still there. Only a last line
without ending that becomes empty is no line any more.
-/

namespace Ia32.Text

/-- The endings of the lines of a text; the last line need not have one. -/
def endings : List Char → List (List Char)
  | [] => []
  | '\n' :: rest => ['\n'] :: endings rest
  | '\r' :: '\n' :: rest => ['\r', '\n'] :: endings rest
  | _ :: rest =>
      match endings rest with
      | [] => [[]]
      | ending :: others => ending :: others

/-- A text with other lines, each with the ending that the text has in its place. -/
def replaceLines (s : List Char) (contents : List (List Char)) : List Char :=
  (List.zipWith (· ++ ·) contents (endings s)).flatten

/-- Text that can be a line with every ending. -/
def IsContent (line : List Char) : Prop :=
  '\n' ∉ line ∧ line.getLast? ≠ some '\r'

/-- A line, its ending and the text behind it. Only a line feed takes a carriage return in
front of it away from the line, and a line without ending is the last one. -/
inductive Starts : List Char → List Char → List Char → Prop
  | feed {line rest : List Char} (h : IsContent line) : Starts line ['\n'] rest
  | returned {line rest : List Char} (h : '\n' ∉ line) : Starts line ['\r', '\n'] rest
  | last {line : List Char} (h : '\n' ∉ line) : Starts line [] []

theorem IsContent.of_cons {c : Char} {line : List Char} (h : IsContent (c :: line)) :
    IsContent line := by
  refine ⟨fun hmem => h.1 (List.mem_cons_of_mem c hmem), fun hlast => h.2 ?_⟩
  rw [List.getLast?_cons, hlast]
  rfl

theorem Starts.of_cons {c : Char} {line ending rest : List Char}
    (h : Starts (c :: line) ending rest) : Starts line ending rest := by
  cases h with
  | feed h => exact .feed h.of_cons
  | returned h => exact .returned fun hmem => h (List.mem_cons_of_mem c hmem)
  | last h => exact .last fun hmem => h (List.mem_cons_of_mem c hmem)

/-- The first character of a line is neither a line feed nor the start of the ending. -/
theorem Starts.first {c : Char} {line ending rest : List Char}
    (h : Starts (c :: line) ending rest) :
    c ≠ '\n' ∧ ∀ tail, c = '\r' → line ++ ending ++ rest ≠ '\n' :: tail := by
  have hfeed : '\n' ∉ c :: line := by
    cases h with
    | feed h => exact h.1
    | returned h => exact h
    | last h => exact h
  refine ⟨fun heq => hfeed (heq ▸ List.mem_cons_self), ?_⟩
  rintro tail rfl htail
  cases line with
  | cons d line =>
      cases htail
      simp at hfeed
  | nil =>
      cases h with
      | feed h => exact h.2 rfl
      | returned h => simp at htail
      | last h => simp at htail

/-- A line in front of a text is its first line, with its ending. -/
theorem Starts.lines_eq {line ending rest : List Char} (h : Starts line ending rest)
    (hnonempty : line ++ ending ≠ []) :
    lines (line ++ ending ++ rest) = line :: lines rest ∧
      endings (line ++ ending ++ rest) = ending :: endings rest := by
  induction line with
  | nil =>
      cases h with
      | feed h => exact ⟨rfl, rfl⟩
      | returned h => exact ⟨rfl, rfl⟩
      | last h => exact absurd rfl hnonempty
  | cons c line ih =>
      obtain ⟨hfeed, hreturn⟩ := h.first
      have hlines := lines.eq_4 c (line ++ ending ++ rest) hfeed fun tail hc => hreturn tail hc
      have hendings := endings.eq_4 c (line ++ ending ++ rest) hfeed fun tail hc => hreturn tail hc
      rw [List.cons_append, List.cons_append, hlines, hendings]
      by_cases hempty : line ++ ending = []
      · -- the line is a single character, and it is the last one
        obtain ⟨rfl, rfl⟩ := List.append_eq_nil_iff.mp hempty
        cases h
        exact ⟨rfl, rfl⟩
      · obtain ⟨hrest, hends⟩ := ih h.of_cons hempty
        rw [hrest, hends]
        exact ⟨rfl, rfl⟩

/-- Every text is empty or starts with a line. -/
theorem exists_starts (s : List Char) (h : s ≠ []) :
    ∃ line ending rest, s = line ++ ending ++ rest ∧ line ++ ending ≠ [] ∧
      Starts line ending rest := by
  induction s with
  | nil => exact absurd rfl h
  | cons c s ih =>
      by_cases hfeed : c = '\n'
      · subst hfeed
        exact ⟨[], ['\n'], s, rfl, by simp, .feed ⟨by simp, by simp⟩⟩
      have hone : '\n' ∉ [c] := by simpa using Ne.symm hfeed
      by_cases hs : s = []
      · subst hs
        exact ⟨[c], [], [], rfl, by simp, .last hone⟩
      obtain ⟨line, ending, rest, rfl, hnonempty, hstarts⟩ := ih hs
      have hmem {line : List Char} (hline : '\n' ∉ line) : '\n' ∉ c :: line := by
        simpa using ⟨Ne.symm hfeed, hline⟩
      cases hstarts with
      | returned hline =>
          exact ⟨c :: line, ['\r', '\n'], rest, rfl, by simp, .returned (hmem hline)⟩
      | last hline => exact ⟨c :: line, [], [], rfl, by simp, .last (hmem hline)⟩
      | feed hline =>
          -- a carriage return directly in front of the line feed is part of the ending
          by_cases hreturn : c = '\r' ∧ line = []
          · obtain ⟨rfl, rfl⟩ := hreturn
            exact ⟨[], ['\r', '\n'], rest, rfl, by simp, .returned (by simp)⟩
          · refine ⟨c :: line, ['\n'], rest, rfl, by simp, .feed ⟨hmem hline.1, fun hlast => ?_⟩⟩
            cases line with
            | nil => exact hreturn ⟨by simpa using hlast, rfl⟩
            | cons d line => exact hline.2 (by simpa using hlast)

/-- What holds of the empty text and of every line in front of a text holds of all texts. -/
@[elab_as_elim]
theorem lines_induction {motive : List Char → Prop} (empty : motive [])
    (line : ∀ line ending rest, Starts line ending rest → line ++ ending ≠ [] → motive rest →
      motive (line ++ ending ++ rest)) (s : List Char) : motive s := by
  induction hlength : s.length using Nat.strong_induction_on generalizing s with
  | _ n ih =>
      by_cases hs : s = []
      · exact hs ▸ empty
      · obtain ⟨front, ending, rest, rfl, hnonempty, hstarts⟩ := exists_starts s hs
        refine line front ending rest hstarts hnonempty (ih rest.length ?_ rest rfl)
        have hpos := List.length_pos_iff.mpr hnonempty
        rw [List.length_append] at hlength
        omega

/-- A line is kept, or replaced by text that can be a line. -/
def Replaces (old new : List Char) : Prop :=
  new = old ∨ IsContent new

theorem Replaces.starts {old new ending rest rest' : List Char} (h : Replaces old new)
    (hold : Starts old ending rest) (hrest : rest = [] → rest' = []) : Starts new ending rest' := by
  rcases h with rfl | hnew
  · cases hold with
    | feed h => exact .feed h
    | returned h => exact .returned h
    | last h => exact hrest rfl ▸ .last h
  · cases hold with
    | feed h => exact .feed hnew
    | returned h => exact .returned hnew.1
    | last h => exact hrest rfl ▸ .last hnew.1

/-- The lines of a text in which lines are replaced: an empty last line may be gone. -/
theorem lines_replaceLines {s : List Char} {contents : List (List Char)}
    (h : List.Forall₂ Replaces (lines s) contents) :
    lines (replaceLines s contents) = contents ∨
      contents = lines (replaceLines s contents) ++ [[]] := by
  induction s using lines_induction generalizing contents with
  | empty =>
      cases h
      exact .inl rfl
  | line line ending rest hstarts hnonempty ih =>
      obtain ⟨hlines, hendings⟩ := hstarts.lines_eq hnonempty
      rw [hlines] at h
      cases h with
      | @cons _ new _ others hnew hothers =>
          have hreplaced : replaceLines (line ++ ending ++ rest) (new :: others) =
              new ++ ending ++ replaceLines rest others := by
            rw [replaceLines, hendings, List.zipWith_cons_cons, List.flatten_cons]
            rfl
          have hlast : rest = [] → replaceLines rest others = [] := by
            rintro rfl
            rw [replaceLines, endings, List.zipWith_nil_right, List.flatten_nil]
          have hstarts' := hnew.starts hstarts hlast
          rw [hreplaced]
          by_cases hempty : new ++ ending = []
          · -- an empty line without ending is the last one
            obtain ⟨rfl, rfl⟩ := List.append_eq_nil_iff.mp hempty
            cases hstarts
            cases hothers
            exact .inr rfl
          · rw [(hstarts'.lines_eq hempty).1]
            exact (ih hothers).imp (congrArg (new :: ·)) (congrArg (new :: ·))

/-- A carriage return in front of a line feed is part of the ending. -/
example : lines (replaceLines "a\r\nb\nc".toList ["".toList, "b".toList, "".toList]) =
    ["".toList, "b".toList] := by decide

end Ia32.Text

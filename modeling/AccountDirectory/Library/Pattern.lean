import Mathlib.Data.List.TakeWhile

/-! Regular expressions that are a row of pieces: literals, greedy stars of a
class, and captured greedy runs of a class, matched with backtracking and
searched for from left to right. Where each run is followed by a literal that
its class does not contain, no backtracking ever succeeds: a run takes all it
can, and the match is a single pass over the text. -/
namespace AccountDirectory.Library

variable {α β : Type*}

inductive Piece (α : Type*) where
  | lit (word : List α)
  /-- `[cls]*` -/
  | many (cls : α → Bool)
  /-- `([cls]+)` -/
  | capture (cls : α → Bool)

/-- The first success among `f n`, `f (n - 1)`, ..., `f 0`. -/
def longest (f : Nat → Option β) : Nat → Option β
  | 0 => f 0
  | n + 1 => (f (n + 1)).or (longest f n)

variable [DecidableEq α]

/-- The text behind `word`, if `text` starts with it. -/
def behind (word text : List α) : Option (List α) :=
  if word.isPrefixOf text then some (text.drop word.length) else none

/-- The captures and the rest of the text, if `text` starts with a match. -/
def matchAt : List (Piece α) → List α → Option (List (List α) × List α)
  | [], text => some ([], text)
  | .lit word :: p, text =>
      if word.isPrefixOf text then matchAt p (text.drop word.length) else none
  | .many cls :: p, text =>
      longest (fun n => matchAt p (text.drop n)) (text.takeWhile cls).length
  | .capture cls :: p, text =>
      longest (fun n => if n = 0 then none else (matchAt p (text.drop n)).map
        fun found => (text.take n :: found.1, found.2)) (text.takeWhile cls).length

/-- The captures of all matches from left to right, without overlap: `skip`
counts what is left of the last one. The pattern is not to match nothing. -/
def findAll (p : List (Piece α)) : Nat → List α → List (List (List α))
  | _, [] => []
  | skip + 1, _ :: text => findAll p skip text
  | 0, a :: text =>
      match matchAt p (a :: text) with
      | some (captured, rest) => captured :: findAll p (text.length - rest.length) text
      | none => findAll p 0 text

section Longest

variable {f : Nat → Option β}

theorem longest_succ (f : Nat → Option β) (n : Nat) :
    longest f (n + 1) = (longest (fun k => f (k + 1)) n).or (f 0) := by
  induction n with
  | zero => rfl
  | succ n ih =>
      change (f (n + 2)).or (longest f (n + 1)) = _
      rw [ih, ← Option.or_assoc]
      rfl

theorem longest_eq_last {n : Nat} (h : ∀ k < n, f k = none) : longest f n = f n := by
  induction n with
  | zero => rfl
  | succ n ih =>
      change (f (n + 1)).or (longest f n) = f (n + 1)
      rw [ih fun k hk => h k (by omega), h n (by omega), Option.or_none]

theorem longest_eq_of_failing {m n : Nat} {b : β} (hle : m ≤ n) (hsome : f m = some b)
    (hnone : ∀ k, m < k → k ≤ n → f k = none) : longest f n = some b := by
  induction n with
  | zero =>
      obtain rfl : m = 0 := by omega
      exact hsome
  | succ n ih =>
      change (f (n + 1)).or (longest f n) = some b
      by_cases hlast : m = n + 1
      · rw [← hlast, hsome, Option.some_or]
      · rw [hnone (n + 1) (by omega) (Nat.le_refl _), Option.none_or]
        exact ih (by omega) fun k hlt hk => hnone k hlt (by omega)

theorem longest_eq_some {n : Nat} {b : β} (h : longest f n = some b) : ∃ k ≤ n, f k = some b := by
  induction n with
  | zero => exact ⟨0, Nat.le_refl _, h⟩
  | succ n ih =>
      change (f (n + 1)).or (longest f n) = some b at h
      cases hlast : f (n + 1) with
      | some b' =>
          rw [hlast, Option.some_or] at h
          exact ⟨n + 1, Nat.le_refl _, hlast.trans h⟩
      | none =>
          rw [hlast, Option.none_or] at h
          obtain ⟨k, hk, hfound⟩ := ih h
          exact ⟨k, Nat.le_succ_of_le hk, hfound⟩

end Longest

section Behind

variable {a b : α} {word text left : List α}

theorem behind_cons (a b : α) (word text : List α) :
    behind (a :: word) (b :: text) = if a = b then behind word text else none := by
  unfold behind
  rw [List.isPrefixOf_cons_cons]
  by_cases h : a = b
  · simp [h]
  · simp [h]

theorem behind_eq_some : behind word text = some left ↔ text = word ++ left := by
  unfold behind
  constructor
  · intro h
    split at h
    · rename_i hword
      cases h
      obtain ⟨rest, rfl⟩ := List.isPrefixOf_iff_prefix.mp hword
      rw [List.drop_left]
    · cases h
  · rintro rfl
    rw [if_pos (List.isPrefixOf_iff_prefix.mpr (List.prefix_append _ _)), List.drop_left]

end Behind

section MatchAt

variable {cls : α → Bool} {a b : α} {word text run : List α} {p : List (Piece α)}

@[simp] theorem matchAt_lit_nil (p : List (Piece α)) (text : List α) :
    matchAt (.lit [] :: p) text = matchAt p text := rfl

@[simp] theorem matchAt_lit_of_nil (a : α) (word : List α) (p : List (Piece α)) :
    matchAt (.lit (a :: word) :: p) [] = none := rfl

/-- A literal is matched one character at a time. -/
theorem matchAt_lit_cons (a b : α) (word : List α) (p : List (Piece α)) (text : List α) :
    matchAt (.lit (a :: word) :: p) (b :: text) =
      if a = b then matchAt (.lit word :: p) text else none := by
  unfold matchAt
  rw [List.isPrefixOf_cons_cons]
  by_cases h : a = b
  · simp [h]
  · simp [h]

@[simp] theorem matchAt_lit_self (a : α) (word : List α) (p : List (Piece α)) (text : List α) :
    matchAt (.lit (a :: word) :: p) (a :: text) = matchAt (.lit word :: p) text := by
  rw [matchAt_lit_cons, if_pos rfl]

theorem matchAt_lit_of_ne (h : a ≠ b) : matchAt (.lit (a :: word) :: p) (b :: text) = none := by
  rw [matchAt_lit_cons, if_neg h]

theorem matchAt_lit_append (word : List α) (p : List (Piece α)) (text : List α) :
    matchAt (.lit word :: p) (word ++ text) = matchAt p text := by
  induction word with
  | nil => rfl
  | cons a word ih => rw [List.cons_append, matchAt_lit_self, ih]

theorem matchAt_many (cls : α → Bool) (p : List (Piece α)) (text : List α) :
    matchAt (.many cls :: p) text =
      longest (fun n => matchAt p (text.drop n)) (text.takeWhile cls).length := rfl

/-- A star before a literal its class does not contain. -/
theorem matchAt_many_cons (hstop : cls a = false) (b : α) (text : List α) :
    matchAt (.many cls :: .lit (a :: word) :: p) (b :: text) =
      if cls b then matchAt (.many cls :: .lit (a :: word) :: p) text
      else matchAt (.lit (a :: word) :: p) (b :: text) := by
  cases hb : cls b with
  | false =>
      rw [matchAt_many, List.takeWhile_cons_of_neg (by rw [hb]; exact Bool.false_ne_true)]
      rfl
  | true =>
      have hne : a ≠ b := by
        rintro rfl
        rw [hstop] at hb
        cases hb
      rw [matchAt_many, List.takeWhile_cons_of_pos hb, List.length_cons, longest_succ, List.drop_zero,
        matchAt_lit_of_ne hne, Option.or_none]
      rfl

theorem matchAt_many_of_stop (hstop : cls a = false) (hb : cls b = false) :
    matchAt (.many cls :: .lit (a :: word) :: p) (b :: text) =
      matchAt (.lit (a :: word) :: p) (b :: text) := by
  rw [matchAt_many_cons hstop, hb]
  rfl

/-- A gap before a literal: the star takes all of it or the match fails. -/
theorem matchAt_many_gap (hstop : cls a = false) {gap : List α} (hgap : a ∉ gap) :
    matchAt (.many cls :: .lit (a :: word) :: p) (gap ++ text) =
      if gap.all cls then matchAt (.many cls :: .lit (a :: word) :: p) text else none := by
  induction gap with
  | nil => rfl
  | cons c gap ih =>
      rw [List.mem_cons, not_or] at hgap
      rw [List.cons_append, matchAt_many_cons hstop, List.all_cons]
      cases hc : cls c with
      | true => rw [if_pos rfl, ih hgap.2, Bool.true_and]
      | false =>
          rw [if_neg Bool.false_ne_true, matchAt_lit_of_ne hgap.1]
          rfl

theorem matchAt_many_run (hstop : cls a = false) (hrun : ∀ c ∈ run, cls c = true) :
    matchAt (.many cls :: .lit (a :: word) :: p) (run ++ text) =
      matchAt (.many cls :: .lit (a :: word) :: p) text := by
  have hgap : a ∉ run := by
    intro hmem
    rw [hrun a hmem] at hstop
    cases hstop
  rw [matchAt_many_gap hstop hgap, if_pos (List.all_eq_true.mpr hrun)]

/-- Before a delimiter that the literal does not contain. -/
theorem matchAt_lit_delimited {d : α} (hd : d ∉ word) (path : List α) :
    matchAt (.lit word :: p) (path ++ d :: text) = match behind word path with
      | some left => matchAt p (left ++ d :: text)
      | none => none := by
  induction word generalizing path with
  | nil => rfl
  | cons a word ih =>
      rw [List.mem_cons, not_or] at hd
      cases path with
      | nil => exact matchAt_lit_of_ne (Ne.symm hd.1)
      | cons b path =>
          rw [List.cons_append, matchAt_lit_cons, behind_cons]
          split
          · exact ih hd.2 path
          · rfl

/-- Before a delimiter that neither the star's class nor the literal contains. -/
theorem matchAt_many_delimited {d : α} (hstop : cls a = false) (hcls : cls d = false)
    (hd : d ∉ a :: word) (path : List α) :
    matchAt (.many cls :: .lit (a :: word) :: p) (path ++ d :: text) =
      match behind (a :: word) (path.dropWhile cls) with
      | some left => matchAt p (left ++ d :: text)
      | none => none := by
  induction path with
  | nil =>
      rw [List.nil_append, matchAt_many_of_stop hstop hcls]
      exact matchAt_lit_delimited hd []
  | cons b path ih =>
      rw [List.cons_append, matchAt_many_cons hstop]
      cases hb : cls b with
      | true =>
          rw [if_pos rfl, ih, List.dropWhile_cons_of_pos hb]
      | false =>
          rw [if_neg Bool.false_ne_true,
            List.dropWhile_cons_of_neg (by rw [hb]; exact Bool.false_ne_true), ← List.cons_append]
          exact matchAt_lit_delimited hd (b :: path)

/-- A star that runs over the delimiter. -/
theorem matchAt_many_past {d : α} (hstop : cls a = false) (hcls : cls d = true)
    (hword : ∀ b, cls b = false → b = a) (path : List α) :
    matchAt (.many cls :: .lit (a :: word) :: p) (path ++ d :: text) =
      match path.dropWhile cls with
      | [] => matchAt (.many cls :: .lit (a :: word) :: p) text
      | _ :: path => matchAt (.lit word :: p) (path ++ d :: text) := by
  induction path with
  | nil =>
      rw [List.nil_append, matchAt_many_cons hstop, hcls]
      rfl
  | cons b path ih =>
      rw [List.cons_append, matchAt_many_cons hstop]
      cases hb : cls b with
      | true => rw [if_pos rfl, ih, List.dropWhile_cons_of_pos hb]
      | false =>
          rw [if_neg Bool.false_ne_true,
            List.dropWhile_cons_of_neg (by rw [hb]; exact Bool.false_ne_true), hword b hb,
            matchAt_lit_self]

theorem matchAt_capture (cls : α → Bool) (p : List (Piece α)) (text : List α) :
    matchAt (.capture cls :: p) text =
      longest (fun n => if n = 0 then none else (matchAt p (text.drop n)).map
        fun found => (text.take n :: found.1, found.2)) (text.takeWhile cls).length := rfl

/-- Short of its end no captured run is followed by the delimiter. -/
theorem matchAt_lit_drop_of_run (hstop : cls a = false) (hrun : ∀ c ∈ run, cls c = true) {k : Nat}
    (hk : k < run.length) (text : List α) :
    matchAt (.lit (a :: word) :: p) ((run ++ text).drop k) = none := by
  rw [List.drop_append_of_le_length (Nat.le_of_lt hk), List.drop_eq_getElem_cons hk,
    List.cons_append]
  apply matchAt_lit_of_ne
  intro heq
  have hmem := hrun _ (List.getElem_mem hk)
  rw [← heq, hstop] at hmem
  cases hmem

/-- A captured run before a literal its class does not contain. -/
theorem matchAt_capture_run (hstop : cls a = false) (hrun : ∀ c ∈ run, cls c = true)
    (hne : run ≠ []) : matchAt (.capture cls :: .lit (a :: word) :: p) (run ++ a :: text) =
      (matchAt (.lit (a :: word) :: p) (a :: text)).map fun found => (run :: found.1, found.2) := by
  have htake : (run ++ a :: text).takeWhile cls = run := by
    rw [List.takeWhile_append_of_pos hrun,
      List.takeWhile_cons_of_neg (by rw [hstop]; exact Bool.false_ne_true), List.append_nil]
  have hpos := List.length_pos_iff.mpr hne
  rw [matchAt_capture, htake, longest_eq_last]
  · rw [if_neg (by omega), List.drop_left, List.take_left]
  · intro k hk
    rw [matchAt_lit_drop_of_run hstop hrun hk, Option.map_none, ite_self]

theorem matchAt_capture_all (hstop : cls a = false) (hrun : ∀ c ∈ run, cls c = true) :
    matchAt (.capture cls :: .lit (a :: word) :: p) run = none := by
  have htake : run.takeWhile cls = run := List.takeWhile_eq_self_iff.mpr hrun
  rw [matchAt_capture, htake, longest_eq_last]
  · rw [List.drop_length, matchAt_lit_of_nil, Option.map_none, ite_self]
  · intro k hk
    have hlit : matchAt (.lit (a :: word) :: p) ((run ++ []).drop k) = none :=
      matchAt_lit_drop_of_run hstop hrun hk []
    rw [List.append_nil] at hlit
    rw [hlit, Option.map_none, ite_self]

/-- What is left after a match is an end of the text. -/
theorem matchAt_suffix {captured : List (List α)} {rest : List α}
    (h : matchAt p text = some (captured, rest)) : rest <:+ text := by
  induction p generalizing text captured with
  | nil =>
      cases h
      exact List.suffix_refl _
  | cons piece p ih =>
      cases piece with
      | lit word =>
          unfold matchAt at h
          split at h
          · exact (ih h).trans (List.drop_suffix _ _)
          · cases h
      | many cls =>
          obtain ⟨k, -, hfound⟩ := longest_eq_some h
          exact (ih hfound).trans (List.drop_suffix _ _)
      | capture cls =>
          obtain ⟨k, -, hfound⟩ := longest_eq_some h
          split at hfound
          · cases hfound
          · obtain ⟨found, hmatch, heq⟩ := Option.map_eq_some_iff.mp hfound
            cases heq
            exact (ih hmatch).trans (List.drop_suffix _ _)

end MatchAt

section FindAll

variable {p : List (Piece α)} {a : α} {word text run : List α}

theorem findAll_skip (p : List (Piece α)) (run text : List α) :
    findAll p run.length (run ++ text) = findAll p 0 text := by
  induction run with
  | nil => rfl
  | cons a run ih => exact ih

theorem findAll_of_none (h : matchAt p (a :: text) = none) :
    findAll p 0 (a :: text) = findAll p 0 text := by
  rw [findAll, h]

theorem findAll_of_match {captured : List (List α)}
    (h : matchAt p (a :: run ++ text) = some (captured, text)) :
    findAll p 0 (a :: run ++ text) = captured :: findAll p 0 text := by
  rw [List.cons_append] at h ⊢
  rw [findAll, h]
  have hskip : (run ++ text).length - text.length = run.length := by
    rw [List.length_append]
    omega
  dsimp only
  rw [hskip, findAll_skip]

/-- Text in which no match starts is passed over. -/
theorem findAll_append_of_none
    (h : ∀ front back, run = front ++ back → back ≠ [] → matchAt p (back ++ text) = none) :
    findAll p 0 (run ++ text) = findAll p 0 text := by
  induction run with
  | nil => rfl
  | cons a run ih =>
      have hfirst := h [] (a :: run) rfl (List.cons_ne_nil _ _)
      rw [List.cons_append] at hfirst ⊢
      rw [findAll_of_none hfirst]
      exact ih fun front back heq => h (a :: front) back (by rw [heq, List.cons_append])

theorem findAll_append_of_not_mem (h : a ∉ run) :
    findAll (.lit (a :: word) :: p) 0 (run ++ text) = findAll (.lit (a :: word) :: p) 0 text := by
  apply findAll_append_of_none
  intro front back heq hne
  cases back with
  | nil => exact absurd rfl hne
  | cons b back =>
      apply matchAt_lit_of_ne
      rintro rfl
      exact h (heq ▸ by simp)

end FindAll

end AccountDirectory.Library

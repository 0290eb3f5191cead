import Mathlib.Data.List.TakeWhile

/-! Tokens of a text, found from left to right. A function says how long the
token is that starts a text, 0 where none does; what starts no token is passed
over one element at a time. -/
namespace AccountDirectory.Library

variable {α : Type*}

/-- `skip` counts what is left of the last token. -/
def scan (width : List α → Nat) : Nat → List α → List (List α)
  | _, [] => []
  | skip + 1, _ :: text => scan width skip text
  | 0, a :: text =>
      match width (a :: text) with
      | 0 => scan width 0 text
      | n + 1 => (a :: text).take (n + 1) :: scan width n text

/-- `text` is `tokens` in order with passed-over elements between them, each
token being what is read where it stands. -/
inductive Laid (width : List α → Nat) : List (List α) → List α → Prop where
  | last : Laid width [] []
  | gap {a : α} {tokens : List (List α)} {text : List α} (hgap : width (a :: text) = 0)
      (hrest : Laid width tokens text) : Laid width tokens (a :: text)
  | token {token : List α} {tokens : List (List α)} {text : List α} (hne : token ≠ [])
      (hwidth : width (token ++ text) = token.length) (hrest : Laid width tokens text) :
      Laid width (token :: tokens) (token ++ text)

variable {width : List α → Nat} {a : α} {token text : List α} {tokens : List (List α)}

theorem scan_skip (run text : List α) : scan width run.length (run ++ text) = scan width 0 text := by
  induction run with
  | nil => rfl
  | cons a run ih => exact ih

theorem scan_gap (h : width (a :: text) = 0) : scan width 0 (a :: text) = scan width 0 text := by
  rw [scan, h]

theorem scan_token (hne : token ≠ []) (hwidth : width (token ++ text) = token.length) :
    scan width 0 (token ++ text) = token :: scan width 0 text := by
  cases token with
  | nil => exact absurd rfl hne
  | cons a run =>
      rw [List.cons_append] at hwidth ⊢
      rw [scan, hwidth, List.length_cons]
      dsimp only
      rw [scan_skip, List.take_succ_cons, List.take_left]

theorem scan_of_laid (h : Laid width tokens text) : scan width 0 text = tokens := by
  induction h with
  | last => rfl
  | gap hgap _ ih => rw [scan_gap hgap, ih]
  | token hne hwidth _ ih => rw [scan_token hne hwidth, ih]

end AccountDirectory.Library

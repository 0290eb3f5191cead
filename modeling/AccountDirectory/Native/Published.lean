import AccountDirectory.Native.Python
import Mathlib.Data.List.DropRight
import Mathlib.Data.List.Infix

/-! What the curated mirror publishes: a file of paths, and the crates whose
manifest no path of it covers. -/
namespace AccountDirectory.Native

/-- Where `str.splitlines` ends a line. Behind a `\r` it passes over a `\n`; here
an empty line is between them, which has no words. -/
def isLineEnd (char : Char) : Bool :=
  let n := char.toNat
  (10 ≤ n && n ≤ 13) || (28 ≤ n && n ≤ 30) || n = 0x85 || n = 0x2028 || n = 0x2029

/-- `str.split()` -/
def words (line : Text) : List Text := (line.splitOnP isSpace).filter (· ≠ [])

/-- `str.strip("/")` -/
def stripSlashes (word : Text) : Text := (word.dropWhile (· = '/')).rdropWhile (· = '/')

def dropHere : Text → Text
  | '.' :: '/' :: rest => dropHere rest
  | word => word

def openPath (word : Text) : Text :=
  match dropHere (stripSlashes word) with
  | [] => ['.']
  | path => path

def openPaths (listing : Text) : Finset Text :=
  ((listing.splitOnP isLineEnd).flatMap fun line =>
    (words (line.takeWhile (· ≠ '#'))).map openPath).toFinset

/-- Whether a path is published: listed, or beneath a listed directory. -/
def isOpen (path : Text) (published : Finset Text) : Bool :=
  ['.'] ∈ published ∨ ∃ p ∈ published, path = p ∨ p ++ ['/'] <+: path

/-- A path under a crate directory, which is `.` at the root. -/
def joinPath (rel path : Text) : Text := if rel = ['.'] then path else rel ++ '/' :: path

def manifestOf (rel : Text) : Text := joinPath rel "Cargo.toml".toList

/-- The packages the listing does not publish, of those with the given directories. -/
def closedCrates (listing : Text) (dirs : List (Text × Text)) : Finset Text :=
  ((dirs.filter fun entry => !isOpen (manifestOf entry.2) (openPaths listing)).map
    Prod.fst).toFinset

structure ListingLine where
  words : List Text
  comment : Option Text
deriving Repr

def ListingLine.text (line : ListingLine) : Text :=
  [' '].intercalate line.words ++ (line.comment.map ('#' :: ·)).getD []

def segments (path : Text) : List Text := path.splitOn '/'

/-- A path as the listing spells it in the repository. -/
structure PlainPath (word : Text) : Prop where
  bare : ∀ c ∈ word, isSpace c = false ∧ c ≠ '#'
  nonempty : word ≠ []
  first : word.head? ≠ some '/'
  last : word.getLast? ≠ some '/'
  here : ¬ ['.', '/'] <+: word

structure ListingLine.Plain (line : ListingLine) : Prop where
  words : ∀ word ∈ line.words, PlainPath word
  comment : ∀ text ∈ line.comment, ∀ c ∈ text, isLineEnd c = false

variable {path dir rel word : Text} {published : Finset Text} {line : ListingLine}
  {lines : List ListingLine}

section Covering

theorem covers_iff : path = dir ∨ dir ++ ['/'] <+: path ↔ segments dir <+: segments path := by
  unfold segments
  constructor
  · rintro (rfl | ⟨rest, rfl⟩)
    · exact List.prefix_rfl
    · rw [List.append_assoc, List.singleton_append, List.splitOn_append_cons_self]
      exact List.prefix_append _ _
  · rintro ⟨rest, hrest⟩
    have hjoined : ['/'].intercalate (path.splitOn '/') = path := List.intercalate_splitOn '/'
    rw [← hrest] at hjoined
    cases rest with
    | nil =>
        rw [List.append_nil, List.intercalate_splitOn] at hjoined
        exact .inl hjoined.symm
    | cons name rest =>
        rw [intercalate_append (List.splitOn_ne_nil _ _) (List.cons_ne_nil _ _),
          List.intercalate_splitOn] at hjoined
        exact .inr ⟨_, hjoined⟩

/-- A crate is published with its directory, with one above it, or by its
manifest's own path; and with the whole repository. -/
theorem isOpen_manifest (hrel : rel ≠ ['.']) : isOpen (manifestOf rel) published = true ↔
    ['.'] ∈ published ∨
      ∃ dir ∈ published, segments dir <+: segments rel ∨ dir = manifestOf rel := by
  have hsegments : segments (manifestOf rel) = segments rel ++ ["Cargo.toml".toList] := by
    have hname : ("Cargo.toml".toList).splitOn '/' = ["Cargo.toml".toList] :=
      List.splitOn_eq_singleton (by decide)
    unfold segments manifestOf joinPath
    rw [if_neg hrel, List.splitOn_append_cons_self, hname]
  have hinjective : ∀ dir, segments dir = segments (manifestOf rel) → dir = manifestOf rel := by
    intro dir hsame
    have hjoined := congrArg (List.intercalate ['/']) hsame
    unfold segments at hjoined
    rwa [List.intercalate_splitOn, List.intercalate_splitOn] at hjoined
  unfold isOpen
  rw [decide_eq_true_eq]
  refine or_congr_right (exists_congr fun dir => and_congr_right fun _ => ?_)
  rw [covers_iff, hsegments, List.prefix_concat_iff, ← hsegments, or_comm]
  exact or_congr_right ⟨hinjective dir, fun h => h ▸ rfl⟩

end Covering

section Reading

theorem words_intercalate {parts : List Text} (h : ∀ part ∈ parts, PlainPath part) :
    words ([' '].intercalate parts) = parts := by
  unfold words
  by_cases hnone : parts = []
  · rw [hnone]
    rfl
  · rw [splitOnP_intercalate (by decide) hnone fun part hpart c hc => ((h part hpart).bare c hc).1,
      List.filter_eq_self]
    exact fun part hpart => decide_eq_true (h part hpart).nonempty

theorem openPath_plain (h : PlainPath word) : openPath word = word := by
  have hfront : word.dropWhile (· = '/') = word := by
    cases word with
    | nil => rfl
    | cons c rest =>
        have hne : c ≠ '/' := fun heq => h.first (congrArg some heq)
        exact List.dropWhile_cons_of_neg (by simpa using hne)
  have hback : word.rdropWhile (· = '/') = word := by
    rw [List.rdropWhile_eq_self_iff]
    intro hne heq
    exact h.last (List.getLast?_eq_some_getLast hne ▸ congrArg some (of_decide_eq_true heq))
  have hdrop : dropHere word = word := by
    unfold dropHere
    split
    · exact absurd ⟨_, rfl⟩ h.here
    · rfl
  unfold openPath stripSlashes
  rw [hfront, hback, hdrop]
  split
  · exact absurd rfl h.nonempty
  · rfl

theorem isSpace_of_isLineEnd {c : Char} (h : isLineEnd c = true) : isSpace c = true := by
  unfold isLineEnd at h
  unfold isSpace
  simp only [Bool.or_eq_true, Bool.and_eq_true, decide_eq_true_eq] at h ⊢
  omega

theorem not_isLineEnd_text (h : line.Plain) : ∀ c ∈ line.text, isLineEnd c = false := by
  intro c hc
  by_contra hend
  have hspace := isSpace_of_isLineEnd (Bool.of_not_eq_false hend)
  rcases List.mem_append.mp hc with hwords | hcomment
  · rcases mem_intercalate hwords with hsep | ⟨word, hword, hc⟩
    · rw [List.mem_singleton.mp hsep] at hend
      exact hend (by decide)
    · rw [((h.words word hword).bare c hc).1] at hspace
      cases hspace
  · cases hcommented : line.comment with
    | none =>
        rw [hcommented] at hcomment
        cases hcomment
    | some text =>
        rw [hcommented] at hcomment
        rcases List.mem_cons.mp hcomment with rfl | hmem
        · exact hend (by decide)
        · exact hend (h.comment text hcommented c hmem)

theorem words_line (h : line.Plain) : words (line.text.takeWhile (· ≠ '#')) = line.words := by
  have hbare : ∀ c ∈ [' '].intercalate line.words, decide (c ≠ '#') = true := by
    intro c hc
    rcases mem_intercalate hc with hsep | ⟨word, hword, hc⟩
    · rw [List.mem_singleton.mp hsep]
      decide
    · exact decide_eq_true ((h.words word hword).bare c hc).2
  have hcut : line.text.takeWhile (· ≠ '#') = [' '].intercalate line.words := by
    unfold ListingLine.text
    rw [List.takeWhile_append_of_pos hbare]
    cases line.comment with
    | none => exact List.append_nil _
    | some text =>
        rw [Option.map_some, Option.getD_some, List.takeWhile_cons_of_neg (by simp),
          List.append_nil]
  rw [hcut, words_intercalate h.words]

/-- The published paths are the words of the lines, up to the comments. -/
theorem mem_openPaths (h : ∀ line ∈ lines, line.Plain) :
    path ∈ openPaths (['\n'].intercalate (lines.map ListingLine.text)) ↔
      ∃ line ∈ lines, path ∈ line.words := by
  unfold openPaths
  rw [List.mem_toFinset]
  by_cases hnone : lines = []
  · subst hnone
    simp [words]
  · rw [splitOnP_intercalate (show isLineEnd '\n' = true by decide) (fun h => hnone (List.map_eq_nil_iff.mp h))
      (List.forall_mem_map.mpr fun line hline => not_isLineEnd_text (h line hline))]
    simp only [List.mem_flatMap, List.mem_map]
    constructor
    · rintro ⟨_, ⟨line, hline, rfl⟩, word, hword, rfl⟩
      rw [words_line (h line hline)] at hword
      rw [openPath_plain ((h line hline).words word hword)]
      exact ⟨line, hline, hword⟩
    · rintro ⟨line, hline, hword⟩
      refine ⟨_, ⟨line, hline, rfl⟩, path, ?_, openPath_plain ((h line hline).words path hword)⟩
      rwa [words_line (h line hline)]

end Reading

theorem mem_closedCrates {listing pkg : Text} {dirs : List (Text × Text)}
    (hdict : (dirs.map Prod.fst).Nodup) (hdir : (pkg, rel) ∈ dirs) :
    pkg ∈ closedCrates listing dirs ↔ ¬ isOpen (manifestOf rel) (openPaths listing) = true := by
  unfold closedCrates
  rw [List.mem_toFinset, List.mem_map]
  constructor
  · rintro ⟨⟨pkg', rel'⟩, hmem, rfl⟩
    obtain ⟨hmem, hshut⟩ := List.mem_filter.mp hmem
    have hsame := List.inj_on_of_nodup_map hdict hmem hdir rfl
    cases hsame
    simpa using hshut
  · intro hshut
    exact ⟨_, List.mem_filter.mpr ⟨hdir, by simpa using hshut⟩, rfl⟩

def Sample.mirror : List ListingLine :=
  [⟨["crates/core".toList, "README.md".toList], some " the core alone".toList⟩,
    ⟨["scripts".toList], none⟩]

theorem Sample.mirror_plain : ∀ line ∈ Sample.mirror, line.Plain := by
  have hpath : ∀ word ∈ ["crates/core".toList, "README.md".toList, "scripts".toList],
      PlainPath word := by
    intro word hword
    have hall : ∀ word ∈ ["crates/core".toList, "README.md".toList, "scripts".toList],
        word.all (fun c => !isSpace c && c ≠ '#') = true ∧ word ≠ [] ∧ word.head? ≠ some '/' ∧
          word.getLast? ≠ some '/' ∧ ¬ ['.', '/'] <+: word := by
      decide +kernel
    obtain ⟨hbare, hne, hfirst, hlast, hhere⟩ := hall word hword
    refine ⟨fun c hc => ?_, hne, hfirst, hlast, hhere⟩
    simpa using List.all_eq_true.mp hbare c hc
  unfold Sample.mirror
  rw [List.forall_mem_cons, List.forall_mem_singleton]
  refine ⟨⟨?_, ?_⟩, ⟨?_, ?_⟩⟩
  · exact fun word hword => hpath word (List.mem_append_left _ hword)
  · rintro text ⟨⟩ c hc
    have hall : " the core alone".toList.all (fun c => !isLineEnd c) = true := by decide
    simpa using List.all_eq_true.mp hall c hc
  · exact fun word hword => hpath word (List.mem_append_right ["crates/core".toList, _] hword)
  · exact fun _ h => nomatch h

end AccountDirectory.Native

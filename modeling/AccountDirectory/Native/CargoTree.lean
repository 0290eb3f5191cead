import AccountDirectory.Library.KeyedLog
import AccountDirectory.Library.Pattern
import AccountDirectory.Library.Traverse
import AccountDirectory.Native.Python
import Mathlib.Data.Finmap

/-! `resolve_for` of the native renderer: what one configuration resolves to on
one host, read from the lines of `cargo tree --prefix depth`. A stack of names
stands for the path from a root to the line being read. -/
namespace AccountDirectory.Native
open Library

structure TreeLine where
  depth : Nat
  name : Text
  version : Text
  features : List Text
deriving DecidableEq, Repr

/-- `(.*?)( \(\*\))?$`: the text without the mark of a subtree printed before. -/
def withoutStar (text : Text) : Text :=
  if " (*)".toList.isSuffixOf text then text.take (text.length - 4) else text

/-- `( \(([^)]*)\))?\|(.*?)( \(\*\))?$`, of which the last group but one is read. -/
def treeTail (text : Text) : Option Text :=
  (((behind " (".toList text).bind fun source =>
    behind ")|".toList (source.dropWhile (· ≠ ')'))).or (behind "|".toList text)).map withoutStar

/-- `TREE_LINE`: each run is taken as long as the rest still matches. -/
def treeLine (text : Text) : Option TreeLine :=
  longest (fun d => if d = 0 then none else
    longest (fun n => if n = 0 then none else
      (behind " v".toList ((text.drop d).drop n)).bind fun rest =>
        longest (fun v => if v = 0 then none else
          (treeTail (rest.drop v)).map fun features =>
            { depth := Nat.ofDigitChars 10 (text.take d) 0
              name := (text.drop d).take n
              version := rest.take v
              features := (features.splitOn ',').filter (· ≠ []) })
          (rest.takeWhile fun c => !isSpace c).length)
      ((text.drop d).takeWhile fun c => !isSpace c).length)
    (text.takeWhile Char.isDigit).length

/-- What is known of a first-party package so far. -/
structure Resolution where
  features : Option (Finset Text) := none
  firstParty : Finset Text := ∅
  thirdParty : Finset (Text × Text) := ∅
deriving DecidableEq

abbrev Resolved := Finmap fun _ : Text => Resolution

/-- `resolved.setdefault(package, ...)` -/
def Resolved.entry (resolved : Resolved) (package : Text) : Resolution :=
  (resolved.lookup package).getD {}

/-- A dependency of `parent`, if `parent` is one of the members. -/
def Resolved.addDep (members : Finset Text) (resolved : Resolved) (parent : Option Text)
    (name version : Text) : Resolved :=
  match parent with
  | none => resolved
  | some parent =>
      if parent ∈ members then
        let entry := resolved.entry parent
        resolved.insert parent
          (if name ∈ members then { entry with firstParty := insert name entry.firstParty }
            else { entry with thirdParty := insert (name, version) entry.thirdParty })
      else resolved

def Resolved.addFeatures (members : Finset Text) (resolved : Resolved) (name : Text)
    (features : List Text) : Resolved :=
  if name ∈ members then
    let entry := resolved.entry name
    resolved.insert name
      { entry with features := some (entry.features.elim features.toFinset (· ∪ features.toFinset)) }
  else resolved

/-- One line: the stack is cut back to the line's depth, and its top is the parent. -/
def treeStep (members : Finset Text) (state : Resolved × List Text) (line : TreeLine) :
    Resolved × List Text :=
  let stack := state.2.take line.depth
  ((state.1.addDep members stack.getLast? line.name line.version).addFeatures members line.name
      line.features,
    stack ++ [line.name])

/-- `resolve_for` on the lines cargo printed; a line that is none of `TREE_LINE`
is passed over. -/
def resolveFor (members : Finset Text) (out : List Text) : Resolved :=
  ((out.filterMap treeLine).foldl (treeStep members) (∅, [])).1

/-! What cargo prints: a forest, each package under each package it is a direct
dependency of, perhaps without what is below it. -/

structure Printed where
  name : Text
  version : Text
  source : Option Text
  features : List Text
  starred : Bool
deriving DecidableEq, Repr

mutual

inductive Tree where
  | node (package : Printed) (deps : Forest)

inductive Forest where
  | nil
  | cons (tree : Tree) (forest : Forest)

end

def Printed.featureText (package : Printed) : Text :=
  List.intercalate [','] package.features ++ if package.starred then " (*)".toList else []

def Printed.tail (package : Printed) : Text :=
  package.source.elim [] (fun source => " (".toList ++ source ++ [')']) ++ '|' :: package.featureText

def Printed.line (package : Printed) (depth : Nat) : Text :=
  Nat.toDigits 10 depth ++ (package.name ++ (" v".toList ++ (package.version ++ package.tail)))

mutual

def Tree.lines (depth : Nat) : Tree → List Text
  | .node package deps => package.line depth :: deps.lines (depth + 1)

def Forest.lines (depth : Nat) : Forest → List Text
  | .nil => []
  | .cons tree forest => tree.lines depth ++ forest.lines depth

end

mutual

/-- Each package printed, with the name of the one it stands under. -/
def Tree.visits (parent : Option Text) : Tree → List (Option Text × Printed)
  | .node package deps => (parent, package) :: deps.visits (some package.name)

def Forest.visits (parent : Option Text) : Forest → List (Option Text × Printed)
  | .nil => []
  | .cons tree forest => tree.visits parent ++ forest.visits parent

end

/-- The line can be read back: no name starts with a digit or holds a space, and
the marks that close a part of the line do not occur in it. -/
structure Printed.Plain (package : Printed) : Prop where
  name_ne : package.name ≠ []
  name_start : ∀ c ∈ package.name.head?, c.isDigit = false
  name_run : ∀ c ∈ package.name, isSpace c = false
  version_ne : package.version ≠ []
  version_run : ∀ c ∈ package.version, isSpace c = false
  source : ∀ source ∈ package.source, ')' ∉ source
  features : ∀ feature ∈ package.features, feature ≠ [] ∧ ',' ∉ feature ∧ '|' ∉ feature ∧
    ' ' ∉ feature

def Printed.isPlain (package : Printed) : Bool :=
  package.name ≠ [] && package.name.head?.all (fun c => !c.isDigit) &&
    package.name.all (fun c => !isSpace c) && package.version ≠ [] &&
    package.version.all (fun c => !isSpace c) &&
    package.source.all (fun source => decide (')' ∉ source)) &&
    package.features.all fun feature =>
      decide (feature ≠ [] ∧ ',' ∉ feature ∧ '|' ∉ feature ∧ ' ' ∉ feature)

theorem Printed.isPlain_iff (package : Printed) : package.isPlain = true ↔ package.Plain := by
  simp only [isPlain, Bool.and_eq_true, decide_eq_true_eq, List.all_eq_true, Option.all_eq_true,
    Bool.not_eq_true', and_assoc]
  constructor
  · rintro ⟨hname, hstart, hrun, hversion, hversionRun, hsource, hfeatures⟩
    exact ⟨hname, hstart, hrun, hversion, hversionRun, hsource, hfeatures⟩
  · intro h
    exact ⟨h.name_ne, h.name_start, h.name_run, h.version_ne, h.version_run, h.source, h.features⟩

instance : DecidablePred Printed.Plain := fun package =>
  decidable_of_iff (package.isPlain = true) package.isPlain_iff

section Reading

variable {text : Text} {package : Printed}

theorem treeTail_eq_none (h : '|' ∉ text) : treeTail text = none := by
  unfold treeTail
  rw [Option.map_eq_none_iff, Option.or_eq_none_iff, Option.bind_eq_none_iff]
  constructor
  · intro source hsource
    rw [Option.eq_none_iff_forall_ne_some]
    intro rest hrest
    rw [behind_eq_some] at hsource hrest
    have hmem : '|' ∈ source := (List.dropWhile_suffix _).subset (by rw [hrest]; simp)
    exact h (by rw [hsource]; simp [hmem])
  · rw [Option.eq_none_iff_forall_ne_some]
    intro rest hrest
    rw [behind_eq_some] at hrest
    exact h (by rw [hrest]; simp)

namespace Printed.Plain

theorem not_mem_features (h : package.Plain) {c : Char} (hc : c = '|' ∨ c = ' ') :
    c ∉ List.intercalate [','] package.features := by
  intro hmem
  rcases mem_intercalate hmem with hsep | ⟨feature, hfeature, hin⟩
  · rw [List.mem_singleton.mp hsep] at hc
    rcases hc with hc | hc <;> cases hc
  · rcases hc with rfl | rfl
    · exact (h.features feature hfeature).2.2.1 hin
    · exact (h.features feature hfeature).2.2.2 hin

theorem withoutStar (h : package.Plain) :
    withoutStar package.featureText = List.intercalate [','] package.features := by
  unfold Native.withoutStar Printed.featureText
  cases package.starred with
  | true =>
      rw [if_pos rfl, if_pos (List.isSuffixOf_iff_suffix.mpr (List.suffix_append _ _)),
        List.length_append]
      exact List.take_left' (by simp)
  | false =>
      rw [if_neg Bool.false_ne_true, List.append_nil, if_neg]
      intro hsuffix
      exact h.not_mem_features (.inr rfl)
        ((List.isSuffixOf_iff_suffix.mp hsuffix).subset (by simp))

theorem bar_not_mem (h : package.Plain) : '|' ∉ package.featureText := by
  rw [Printed.featureText, List.mem_append, not_or]
  refine ⟨h.not_mem_features (.inl rfl), ?_⟩
  cases package.starred <;> decide

theorem split_features (h : package.Plain) :
    ((List.intercalate [','] package.features).splitOn ',').filter (· ≠ []) =
      package.features := by
  by_cases hnil : package.features = []
  · rw [hnil]
    rfl
  · rw [List.splitOn_intercalate ',' (fun feature hmem => (h.features feature hmem).2.1) hnil]
    apply List.filter_eq_self.mpr
    intro feature hmem
    exact decide_eq_true (h.features feature hmem).1

theorem treeTail (h : package.Plain) :
    treeTail package.tail = some (List.intercalate [','] package.features) := by
  have hstar := h.withoutStar
  unfold Native.treeTail Printed.tail
  generalize package.featureText = text at hstar ⊢
  cases hsource : package.source with
  | none =>
      have hgroup : behind " (".toList ('|' :: text) = none := by
        change behind [' ', '('] ('|' :: text) = none
        rw [behind_cons, if_neg (by decide)]
      have hbar : behind "|".toList ('|' :: text) = some text := behind_eq_some.mpr rfl
      rw [Option.elim_none, List.nil_append, hgroup, hbar, Option.bind_none, Option.none_or,
        Option.map_some, hstar]
  | some source =>
      have hstop : ∀ c ∈ source, decide (c ≠ ')') = true := by
        intro c hc
        rw [decide_eq_true_iff]
        rintro rfl
        exact h.source source hsource hc
      have hgroup : behind " (".toList (" (".toList ++ source ++ [')'] ++ '|' :: text) =
          some (source ++ (')' :: '|' :: text)) :=
        behind_eq_some.mpr (by simp)
      have hbar : behind ")|".toList (')' :: '|' :: text) = some text := behind_eq_some.mpr rfl
      rw [Option.elim_some, hgroup, Option.bind_some, List.dropWhile_append_of_pos hstop,
        List.dropWhile_cons_of_neg (by simp), hbar, Option.some_or, Option.map_some, hstar]

/-- The version runs up to the source, or to the bar before the features. -/
theorem longest_version (h : package.Plain) {β : Type} (found : Nat → Text → β) :
    longest (fun v => if v = 0 then none else
        (Native.treeTail ((package.version ++ package.tail).drop v)).map (found v))
      ((package.version ++ package.tail).takeWhile fun c => !isSpace c).length =
      some (found package.version.length (List.intercalate [','] package.features)) := by
  have hlength : 0 < package.version.length := List.length_pos_of_ne_nil h.version_ne
  have hrun : ∀ c ∈ package.version, (!isSpace c) = true := by
    intro c hc
    rw [h.version_run c hc]
    rfl
  apply longest_eq_of_failing (m := package.version.length)
  · rw [List.takeWhile_append_of_pos hrun, List.length_append]
    exact Nat.le_add_right _ _
  · rw [if_neg (by omega), List.drop_left, h.treeTail, Option.map_some]
  · intro k hlt hk
    rw [List.takeWhile_append_of_pos hrun, List.length_append] at hk
    obtain ⟨n, rfl⟩ : ∃ n, k = package.version.length + (n + 1) :=
      ⟨k - package.version.length - 1, by omega⟩
    cases hsource : package.source with
    | some source =>
        rw [Printed.tail, hsource, Option.elim_some, List.append_assoc, List.append_assoc] at hk
        change _ ≤ _ + ((' ' :: _).takeWhile _).length at hk
        rw [List.takeWhile_cons_of_neg (by decide), List.length_nil] at hk
        omega
    | none =>
        have hnone : Native.treeTail (package.featureText.drop n) = none :=
          treeTail_eq_none fun hmem => h.bar_not_mem (List.mem_of_mem_drop hmem)
        rw [if_neg (by omega), List.drop_append, List.drop_eq_nil_of_le (by omega),
          Nat.add_sub_cancel_left, List.nil_append, Printed.tail, hsource, Option.elim_none,
          List.nil_append, List.drop_succ_cons, hnone, Option.map_none]

theorem treeLine (h : package.Plain) (depth : Nat) :
    treeLine (package.line depth) =
      some ⟨depth, package.name, package.version, package.features⟩ := by
  have hdigits : ∀ c ∈ Nat.toDigits 10 depth, c.isDigit = true :=
    fun c hc => Nat.isDigit_of_mem_toDigits (by omega) (by omega) hc
  have hdepth : 0 < (Nat.toDigits 10 depth).length := Nat.length_toDigits_pos
  have hname : 0 < package.name.length := List.length_pos_of_ne_nil h.name_ne
  have hrun : ∀ c ∈ package.name, (!isSpace c) = true := by
    intro c hc
    rw [h.name_run c hc]
    rfl
  have hstart : ∀ text, (package.name ++ text).takeWhile Char.isDigit = [] := by
    intro text
    cases hcases : package.name with
    | nil => exact absurd hcases h.name_ne
    | cons c run =>
        have hc := h.name_start c (by rw [hcases]; rfl)
        rw [List.cons_append, List.takeWhile_cons_of_neg (by simp [hc])]
  have hspace : ∀ text, (" v".toList ++ text).takeWhile (fun c => !isSpace c) = [] :=
    fun text => List.takeWhile_cons_of_neg (by decide)
  unfold Native.treeLine Printed.line
  rw [List.takeWhile_append_of_pos hdigits, hstart, List.append_nil]
  apply longest_eq_of_failing (Nat.le_refl _)
  · rw [if_neg (by omega), List.drop_left, List.take_left, List.takeWhile_append_of_pos hrun, hspace,
      List.append_nil]
    apply longest_eq_of_failing (Nat.le_refl _)
    · have hv : behind " v".toList (" v".toList ++ (package.version ++ package.tail)) =
          some (package.version ++ package.tail) := behind_eq_some.mpr rfl
      rw [if_neg (by omega), List.drop_left, List.take_left, hv, Option.bind_some,
        h.longest_version, List.take_left, Nat.ofDigitChars_toDigits (by omega) (by omega),
        h.split_features]
    · intro k hlt hk
      omega
  · intro k hlt hk
    omega

end Printed.Plain

end Reading

mutual

def Tree.treeLines (depth : Nat) : Tree → List TreeLine
  | .node package deps =>
      ⟨depth, package.name, package.version, package.features⟩ :: deps.treeLines (depth + 1)

def Forest.treeLines (depth : Nat) : Forest → List TreeLine
  | .nil => []
  | .cons tree forest => tree.treeLines depth ++ forest.treeLines depth

end

/-- One visit, the parent's name at hand. -/
def Resolved.record (members : Finset Text) (resolved : Resolved)
    (visit : Option Text × Printed) : Resolved :=
  (resolved.addDep members visit.1 visit.2.name visit.2.version).addFeatures members visit.2.name
    visit.2.features

section Walk

variable {members : Finset Text} {depth : Nat} {stack : List Text} {resolved : Resolved}

mutual

theorem Tree.filterMap_lines : (tree : Tree) → ∀ depth parent,
    (∀ visit ∈ tree.visits parent, visit.2.Plain) →
      (tree.lines depth).filterMap treeLine = tree.treeLines depth
  | .node package deps => by
      intro depth parent hplain
      rw [Tree.visits, List.forall_mem_cons] at hplain
      rw [Tree.lines, List.filterMap_cons_some (hplain.1.treeLine depth), Tree.treeLines,
        deps.filterMap_lines (depth + 1) _ hplain.2]

theorem Forest.filterMap_lines : (forest : Forest) → ∀ depth parent,
    (∀ visit ∈ forest.visits parent, visit.2.Plain) →
      (forest.lines depth).filterMap treeLine = forest.treeLines depth
  | .nil => fun _ _ _ => rfl
  | .cons tree forest => by
      intro depth parent hplain
      rw [Forest.visits, List.forall_mem_append] at hplain
      rw [Forest.lines, List.filterMap_append, Forest.treeLines,
        tree.filterMap_lines depth parent hplain.1, forest.filterMap_lines depth parent hplain.2]

end

/-- What the lines of a forest at a depth leave: each visit recorded under the
name at the top of the path, and the path as it was. -/
def Walks (members : Finset Text) (depth : Nat) (lines : List TreeLine)
    (visits : Option Text → List (Option Text × Printed)) : Prop :=
  ∀ (resolved : Resolved) (stack : List Text), depth ≤ stack.length →
    (lines.foldl (treeStep members) (resolved, stack)).1 =
        (visits (stack.take depth).getLast?).foldl (Resolved.record members) resolved ∧
      (lines.foldl (treeStep members) (resolved, stack)).2.take depth = stack.take depth ∧
      depth ≤ (lines.foldl (treeStep members) (resolved, stack)).2.length

mutual

theorem Tree.walks (members : Finset Text) : (tree : Tree) → ∀ depth,
    Walks members depth (tree.treeLines depth) fun parent => tree.visits parent
  | .node package deps => by
      intro depth resolved stack hdepth
      have hlength : (stack.take depth ++ [package.name]).length = depth + 1 := by
        rw [List.length_append, List.length_take_of_le hdepth, List.length_singleton]
      have hpath : (stack.take depth ++ [package.name]).take (depth + 1) =
          stack.take depth ++ [package.name] := List.take_of_length_le hlength.le
      obtain ⟨hresolved, hstack, hlong⟩ := deps.walks members (depth + 1)
        (resolved.record members ((stack.take depth).getLast?, package))
        (stack.take depth ++ [package.name]) hlength.ge
      rw [hpath] at hresolved hstack
      rw [List.getLast?_concat] at hresolved
      simp only [Tree.treeLines, Tree.visits, List.foldl_cons]
      refine ⟨hresolved, ?_, Nat.le_of_succ_le hlong⟩
      have hshorter := congrArg (List.take depth) hstack
      rw [List.take_take, Nat.min_eq_left (Nat.le_succ depth)] at hshorter
      refine hshorter.trans ?_
      exact List.take_left' (List.length_take_of_le hdepth)

theorem Forest.walks (members : Finset Text) : (forest : Forest) → ∀ depth,
    Walks members depth (forest.treeLines depth) fun parent => forest.visits parent
  | .nil => fun _ _ _ hdepth => ⟨rfl, rfl, hdepth⟩
  | .cons tree forest => by
      intro depth resolved stack hdepth
      obtain ⟨hresolved, hstack, hlong⟩ := tree.walks members depth resolved stack hdepth
      obtain ⟨hresolved', hstack', hlong'⟩ := forest.walks members depth
        ((tree.treeLines depth).foldl (treeStep members) (resolved, stack)).1 _ hlong
      simp only [Forest.treeLines, Forest.visits, List.foldl_append]
      refine ⟨hresolved'.trans ?_, hstack'.trans hstack, hlong'⟩
      rw [hstack, hresolved]

end

/-- The walk along the printed lines records every visit, and nothing else. -/
theorem resolveFor_eq (forest : Forest)
    (hplain : ∀ visit ∈ forest.visits none, visit.2.Plain) {out : List Text}
    (hout : out.filter (· ≠ []) = forest.lines 0) :
    resolveFor members out = (forest.visits none).foldl (Resolved.record members) ∅ := by
  have hblank : out.filterMap treeLine = (out.filter (· ≠ [])).filterMap treeLine := by
    rw [List.filterMap_filter]
    apply List.filterMap_congr
    intro text _
    by_cases hnil : text = []
    · rw [hnil]
      rfl
    · simp [hnil]
  unfold resolveFor
  rw [hblank, hout, forest.filterMap_lines 0 none hplain]
  exact (forest.walks members 0 ∅ [] (Nat.zero_le _)).1

end Walk

section Recorded

variable {members : Finset Text} {resolved : Resolved} {visit : Option Text × Printed}
  {visits : List (Option Text × Printed)} {package name version feature : Text}

theorem entry_insert (resolved : Resolved) (k k' : Text) (entry : Resolution) :
    Resolved.entry (resolved.insert k entry) k' = if k' = k then entry else resolved.entry k' :=
  getD_lookup_insert resolved k k' entry

theorem entry_addFeatures (resolved : Resolved) (features : List Text) :
    (resolved.addFeatures members name features).entry package =
      if name ∈ members ∧ package = name then
        { resolved.entry name with
          features := some ((resolved.entry name).features.getD ∅ ∪ features.toFinset) }
      else resolved.entry package := by
  unfold Resolved.addFeatures
  by_cases hmember : name ∈ members
  · rw [if_pos hmember, entry_insert]
    by_cases hname : package = name
    · rw [if_pos hname, if_pos ⟨hmember, hname⟩]
      cases (resolved.entry name).features with
      | none => simp
      | some known => rfl
    · rw [if_neg hname, if_neg (fun h => hname h.2)]
  · rw [if_neg hmember, if_neg (fun h => hmember h.1)]

theorem entry_addDep (resolved : Resolved) (parent : Option Text) :
    (resolved.addDep members parent name version).entry package =
      if package ∈ members ∧ parent = some package then
        if name ∈ members then
          { resolved.entry package with
            firstParty := insert name (resolved.entry package).firstParty }
        else
          { resolved.entry package with
            thirdParty := insert (name, version) (resolved.entry package).thirdParty }
      else resolved.entry package := by
  unfold Resolved.addDep
  cases parent with
  | none => rw [if_neg (by simp)]
  | some parent =>
      dsimp only
      by_cases hmember : parent ∈ members
      · rw [if_pos hmember, entry_insert]
        by_cases hparent : package = parent
        · subst hparent
          rw [if_pos rfl]
          exact (if_pos ⟨hmember, rfl⟩).symm
        · rw [if_neg hparent, if_neg fun h => hparent (Option.some.inj h.2).symm]
      · rw [if_neg hmember, if_neg]
        rintro ⟨hin, hsame⟩
        exact hmember (Option.some.inj hsame ▸ hin)

theorem mem_record_features :
    feature ∈ ((resolved.record members visit).entry package).features.getD ∅ ↔
      feature ∈ (resolved.entry package).features.getD ∅ ∨
        package ∈ members ∧ visit.2.name = package ∧ feature ∈ visit.2.features := by
  have hdep : ∀ other, ((resolved.addDep members visit.1 visit.2.name visit.2.version).entry
      other).features = (resolved.entry other).features := by
    intro other
    rw [entry_addDep]
    split
    · split <;> rfl
    · rfl
  unfold Resolved.record
  rw [entry_addFeatures]
  by_cases hvisit : visit.2.name ∈ members ∧ package = visit.2.name
  · rw [if_pos hvisit, hdep, hvisit.2]
    simp [hvisit.1]
  · rw [if_neg hvisit, hdep]
    constructor
    · exact .inl
    · rintro (hold | ⟨hmember, hname, -⟩)
      · exact hold
      · exact absurd ⟨hname ▸ hmember, hname.symm⟩ hvisit

theorem mem_record_firstParty :
    name ∈ ((resolved.record members visit).entry package).firstParty ↔
      name ∈ (resolved.entry package).firstParty ∨
        package ∈ members ∧ name ∈ members ∧ visit.1 = some package ∧ visit.2.name = name := by
  have hfeatures : ((resolved.record members visit).entry package).firstParty =
      ((resolved.addDep members visit.1 visit.2.name visit.2.version).entry package).firstParty := by
    unfold Resolved.record
    rw [entry_addFeatures]
    split
    · rename_i h
      rw [h.2]
    · rfl
  rw [hfeatures, entry_addDep]
  split
  · rename_i hparent
    split
    · rename_i hname
      rw [Finset.mem_insert, or_comm]
      constructor
      · rintro (hold | rfl)
        · exact .inl hold
        · exact .inr ⟨hparent.1, hname, hparent.2, rfl⟩
      · rintro (hold | ⟨-, -, -, rfl⟩)
        · exact .inl hold
        · exact .inr rfl
    · rename_i hname
      constructor
      · exact .inl
      · rintro (hold | ⟨-, hin, -, rfl⟩)
        · exact hold
        · exact absurd hin hname
  · rename_i hparent
    constructor
    · exact .inl
    · rintro (hold | ⟨hin, -, hsame, -⟩)
      · exact hold
      · exact absurd ⟨hin, hsame⟩ hparent

theorem mem_record_thirdParty :
    (name, version) ∈ ((resolved.record members visit).entry package).thirdParty ↔
      (name, version) ∈ (resolved.entry package).thirdParty ∨
        package ∈ members ∧ name ∉ members ∧ visit.1 = some package ∧ visit.2.name = name ∧
          visit.2.version = version := by
  have hfeatures : ((resolved.record members visit).entry package).thirdParty =
      ((resolved.addDep members visit.1 visit.2.name visit.2.version).entry package).thirdParty := by
    unfold Resolved.record
    rw [entry_addFeatures]
    split
    · rename_i h
      rw [h.2]
    · rfl
  rw [hfeatures, entry_addDep]
  split
  · rename_i hparent
    split
    · rename_i hname
      constructor
      · exact .inl
      · rintro (hold | ⟨-, hout, -, rfl, -⟩)
        · exact hold
        · exact absurd hname hout
    · rename_i hname
      rw [Finset.mem_insert, or_comm]
      constructor
      · rintro (hold | hpair)
        · exact .inl hold
        · obtain ⟨rfl, rfl⟩ := Prod.mk.inj hpair
          exact .inr ⟨hparent.1, hname, hparent.2, rfl, rfl⟩
      · rintro (hold | ⟨-, -, -, rfl, rfl⟩)
        · exact .inl hold
        · exact .inr rfl
  · rename_i hparent
    constructor
    · exact .inl
    · rintro (hold | ⟨hin, -, hsame, -⟩)
      · exact hold
      · exact absurd ⟨hin, hsame⟩ hparent

theorem mem_record :
    package ∈ resolved.record members visit ↔
      package ∈ resolved ∨
        package ∈ members ∧ (visit.1 = some package ∨ visit.2.name = package) := by
  obtain ⟨parent, printed⟩ := visit
  have hdep : package ∈ resolved.addDep members parent printed.name printed.version ↔
      package ∈ resolved ∨ package ∈ members ∧ parent = some package := by
    unfold Resolved.addDep
    cases parent with
    | none => simp
    | some parent =>
        dsimp only
        split
        · rename_i hparent
          rw [Finmap.mem_insert, Option.some.injEq]
          constructor
          · rintro (rfl | hold)
            · exact .inr ⟨hparent, rfl⟩
            · exact .inl hold
          · rintro (hold | ⟨-, rfl⟩)
            · exact .inr hold
            · exact .inl rfl
        · rename_i hparent
          rw [Option.some.injEq]
          constructor
          · exact .inl
          · rintro (hold | ⟨hin, rfl⟩)
            · exact hold
            · exact absurd hin hparent
  unfold Resolved.record Resolved.addFeatures
  dsimp only
  split
  · rename_i hname
    rw [Finmap.mem_insert, hdep]
    constructor
    · rintro (rfl | hold | ⟨hin, hsame⟩)
      · exact .inr ⟨hname, .inr rfl⟩
      · exact .inl hold
      · exact .inr ⟨hin, .inl hsame⟩
    · rintro (hold | ⟨hin, hsame | rfl⟩)
      · exact .inr (.inl hold)
      · exact .inr (.inr ⟨hin, hsame⟩)
      · exact .inl rfl
  · rename_i hname
    rw [hdep]
    constructor
    · rintro (hold | ⟨hin, hsame⟩)
      · exact .inl hold
      · exact .inr ⟨hin, .inl hsame⟩
    · rintro (hold | ⟨hin, hsame | rfl⟩)
      · exact .inl hold
      · exact .inr ⟨hin, hsame⟩
      · exact absurd hin hname

end Recorded

def Forest.Prints (forest : Forest) (package : Printed) : Prop :=
  ∃ parent, (parent, package) ∈ forest.visits none

def Forest.Depends (forest : Forest) (parent : Text) (package : Printed) : Prop :=
  (some parent, package) ∈ forest.visits none

mutual

/-- A package stands under one that was printed, or under the forest's own parent. -/
theorem Tree.parent_visited {name : Text} {package : Printed} : (tree : Tree) → ∀ parent,
    (some name, package) ∈ tree.visits parent →
      parent = some name ∨ ∃ visit ∈ tree.visits parent, visit.2.name = name
  | .node top deps => by
      intro parent hmem
      rw [Tree.visits, List.mem_cons] at hmem
      rcases hmem with heq | hmem
      · exact .inl (congrArg Prod.fst heq).symm
      · right
        rw [Tree.visits]
        rcases deps.parent_visited (some top.name) hmem with hparent | ⟨visit, hvisit, hname⟩
        · exact ⟨(parent, top), by simp, Option.some.inj hparent⟩
        · exact ⟨visit, List.mem_cons_of_mem _ hvisit, hname⟩

theorem Forest.parent_visited {name : Text} {package : Printed} : (forest : Forest) → ∀ parent,
    (some name, package) ∈ forest.visits parent →
      parent = some name ∨ ∃ visit ∈ forest.visits parent, visit.2.name = name
  | .nil => fun _ hmem => absurd hmem (List.not_mem_nil)
  | .cons tree forest => by
      intro parent hmem
      rw [Forest.visits, List.mem_append] at hmem
      rw [Forest.visits]
      rcases hmem with hmem | hmem
      · rcases tree.parent_visited parent hmem with hparent | ⟨visit, hvisit, hname⟩
        · exact .inl hparent
        · exact .inr ⟨visit, List.mem_append_left _ hvisit, hname⟩
      · rcases forest.parent_visited parent hmem with hparent | ⟨visit, hvisit, hname⟩
        · exact .inl hparent
        · exact .inr ⟨visit, List.mem_append_right _ hvisit, hname⟩

end

section Printing

variable {members : Finset Text} {forest : Forest} {out : List Text} {package name version feature : Text}

theorem mem_resolveFor (hplain : ∀ visit ∈ forest.visits none, visit.2.Plain)
    (hout : out.filter (· ≠ []) = forest.lines 0) :
    package ∈ resolveFor members out ↔
      package ∈ members ∧ ∃ printed, forest.Prints printed ∧ printed.name = package := by
  rw [resolveFor_eq forest hplain hout,
    foldl_gathers (Resolved.record members) (fun resolved (package : Text) => package ∈ resolved)
      fun _ _ _ => mem_record]
  constructor
  · rintro (hold | ⟨⟨parent, printed⟩, hvisit, hmember, hparent | hname⟩)
    · exact absurd hold Finmap.notMem_empty
    · obtain rfl : parent = some package := hparent
      rcases forest.parent_visited none hvisit with hnone | ⟨visit, hmem, hname⟩
      · cases hnone
      · exact ⟨hmember, visit.2, ⟨visit.1, hmem⟩, hname⟩
    · exact ⟨hmember, printed, ⟨parent, hvisit⟩, hname⟩
  · rintro ⟨hmember, printed, ⟨parent, hvisit⟩, hname⟩
    exact .inr ⟨(parent, printed), hvisit, hmember, .inr hname⟩

theorem mem_features_resolveFor (hplain : ∀ visit ∈ forest.visits none, visit.2.Plain)
    (hout : out.filter (· ≠ []) = forest.lines 0) :
    feature ∈ ((resolveFor members out).entry package).features.getD ∅ ↔
      package ∈ members ∧ ∃ printed, forest.Prints printed ∧ printed.name = package ∧
        feature ∈ printed.features := by
  rw [resolveFor_eq forest hplain hout, foldl_gathers (Resolved.record members)
    (fun resolved feature => feature ∈ (Resolved.entry resolved package).features.getD ∅)
    fun _ _ _ => mem_record_features]
  constructor
  · rintro (hold | ⟨⟨parent, printed⟩, hvisit, hmember, hname, hfeature⟩)
    · cases hold
    · exact ⟨hmember, printed, ⟨parent, hvisit⟩, hname, hfeature⟩
  · rintro ⟨hmember, printed, ⟨parent, hvisit⟩, hname, hfeature⟩
    exact .inr ⟨(parent, printed), hvisit, hmember, hname, hfeature⟩

theorem mem_firstParty_resolveFor (hplain : ∀ visit ∈ forest.visits none, visit.2.Plain)
    (hout : out.filter (· ≠ []) = forest.lines 0) :
    name ∈ ((resolveFor members out).entry package).firstParty ↔
      package ∈ members ∧ name ∈ members ∧ ∃ printed, forest.Depends package printed ∧
        printed.name = name := by
  rw [resolveFor_eq forest hplain hout, foldl_gathers (Resolved.record members)
    (fun resolved name => name ∈ (Resolved.entry resolved package).firstParty)
    fun _ _ _ => mem_record_firstParty]
  constructor
  · rintro (hold | ⟨⟨parent, printed⟩, hvisit, hmember, hin, hparent, hname⟩)
    · cases hold
    · obtain rfl : parent = some package := hparent
      exact ⟨hmember, hin, printed, hvisit, hname⟩
  · rintro ⟨hmember, hin, printed, hvisit, hname⟩
    exact .inr ⟨(some package, printed), hvisit, hmember, hin, rfl, hname⟩

theorem mem_thirdParty_resolveFor (hplain : ∀ visit ∈ forest.visits none, visit.2.Plain)
    (hout : out.filter (· ≠ []) = forest.lines 0) :
    (name, version) ∈ ((resolveFor members out).entry package).thirdParty ↔
      package ∈ members ∧ name ∉ members ∧ ∃ printed, forest.Depends package printed ∧
        printed.name = name ∧ printed.version = version := by
  rw [resolveFor_eq forest hplain hout, foldl_gathers (Resolved.record members)
    (fun resolved (dep : Text × Text) => dep ∈ (Resolved.entry resolved package).thirdParty)
    fun _ _ _ => mem_record_thirdParty]
  constructor
  · rintro (hold | ⟨⟨parent, printed⟩, hvisit, hmember, hout, hparent, hname, hversion⟩)
    · cases hold
    · obtain rfl : parent = some package := hparent
      exact ⟨hmember, hout, printed, hvisit, hname, hversion⟩
  · rintro ⟨hmember, hout, printed, hvisit, hname, hversion⟩
    exact .inr ⟨(some package, printed), hvisit, hmember, hout, rfl, hname, hversion⟩

end Printing

def Sample.forest : Forest :=
  let core (starred : Bool) : Printed :=
    ⟨"core".toList, "0.2.0".toList, some "/w/core".toList, ["std".toList], starred⟩
  let serde : Printed :=
    ⟨"serde".toList, "1.0.1".toList, none, ["derive".toList, "std".toList], false⟩
  .cons (.node ⟨"app".toList, "0.1.0".toList, some "/w/app".toList, [], false⟩
      (.cons (.node (core false) (.cons (.node serde .nil) .nil)) .nil))
    (.cons (.node (core true) .nil) .nil)

end AccountDirectory.Native

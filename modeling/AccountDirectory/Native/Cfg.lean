import AccountDirectory.Library.Scan
import Mathlib.Data.List.Induction

/-! `cfg_holds` of the native renderer: whether a dependency's `target`, a
`cfg(...)` expression or a bare triple, holds for a target. The expression is
cut into tokens, what is no token being skipped, and read by descent. -/
namespace AccountDirectory.Native
open Library

abbrev Token := List Char

inductive CfgError where
  /-- An `IndexError`: a token or an argument that is not there. -/
  | index
  /-- The descent ran deeper than its bound. -/
  | tooDeep
deriving DecidableEq, Repr

/-- `[A-Za-z_]` -/
def wordStart (char : Char) : Bool :=
  ('A' ≤ char && char ≤ 'Z') || ('a' ≤ char && char ≤ 'z') || char = '_'

/-- `[A-Za-z0-9_]` -/
def wordPart (char : Char) : Bool := wordStart char || ('0' ≤ char && char ≤ '9')

def punctuation (char : Char) : Bool := char = '(' || char = ')' || char = ',' || char = '='

/-- The length of the match of `[A-Za-z_][A-Za-z0-9_]*|"[^"]*"|[(),=]` at the
start of a text, 0 where there is none. -/
def tokenWidth : List Char → Nat
  | [] => 0
  | char :: text =>
      if wordStart char then (text.takeWhile wordPart).length + 1
      else if char = '"' then
        if '"' ∈ text then (text.takeWhile (· ≠ '"')).length + 2 else 0
      else if punctuation char then 1
      else 0

def stripQuotes (text : List Char) : List Char :=
  ((text.dropWhile (· = '"')).reverse.dropWhile (· = '"')).reverse

/-- What rustc says holds for a target. -/
structure TargetCfgs where
  names : List Token
  pairs : List (Token × Token)
deriving DecidableEq, Repr

/-- `target_cfgs` on the lines rustc prints. -/
def targetCfgs (lines : List (List Char)) : TargetCfgs :=
  lines.foldl (fun cfgs line =>
    if '=' ∈ line then
      { cfgs with
        pairs := cfgs.pairs ++
          [(line.takeWhile (· ≠ '='), stripQuotes ((line.dropWhile (· ≠ '=')).drop 1))] }
    else { cfgs with names := cfgs.names ++ [line] }) ⟨[], []⟩

def combinator (token : Token) : Bool :=
  token = "all".toList || token = "any".toList || token = "not".toList

/-- `not` looks at its first argument. -/
def combine (token : Token) (args : List Bool) : Except CfgError Bool :=
  if token = "all".toList then .ok (args.all id)
  else if token = "any".toList then .ok (args.any id)
  else
    match args with
    | [] => .error .index
    | arg :: _ => .ok (!arg)

mutual

/-- `parse`: whether the expression that starts the tokens holds, and the
tokens behind it. -/
def parse (cfgs : TargetCfgs) : Nat → List Token → Except CfgError (Bool × List Token)
  | 0, _ => .error .tooDeep
  | _ + 1, [] => .error .index
  | depth + 1, token :: rest =>
      if combinator token && rest.head? = some ['('] then
        match parseArgs cfgs depth (rest.drop 1) with
        | .error error => .error error
        | .ok (args, rest) => (combine token args).map fun value => (value, rest)
      else if rest.head? = some ['='] then
        match rest.drop 1 with
        | [] => .error .index
        | value :: rest => .ok (decide ((token, stripQuotes value) ∈ cfgs.pairs), rest)
      else .ok (decide (token ∈ cfgs.names), rest)

def parseArgs (cfgs : TargetCfgs) : Nat → List Token → Except CfgError (List Bool × List Token)
  | 0, _ => .error .tooDeep
  | _ + 1, [] => .error .index
  | depth + 1, token :: rest =>
      if token = [')'] then .ok ([], rest)
      else
        match parse cfgs depth (token :: rest) with
        | .error error => .error error
        | .ok (_, []) => .error .index
        | .ok (arg, next :: rest) =>
            match parseArgs cfgs depth (if next = [','] then rest else next :: rest) with
            | .error error => .error error
            | .ok (args, rest) => .ok (arg :: args, rest)

end

/-- `cfg_holds`, given what rustc prints for each triple. The descent is bounded
by the number of tokens. -/
def cfgHolds (rustc : List Char → List (List Char)) (expr triple : List Char) :
    Except CfgError Bool :=
  if "cfg(".toList.isPrefixOf expr then
    let tokens := scan tokenWidth 0 (expr.drop 4).dropLast
    (parse (targetCfgs (rustc triple)) (tokens.length + 2) tokens).map Prod.fst
  else .ok (expr = triple)

/-! The expressions themselves, as cargo writes them, with what they mean. -/

abbrev Word := { word : Token // ∃ char run, word = char :: run ∧ wordStart char = true ∧
  ∀ c ∈ run, wordPart c = true }

abbrev Unquoted := { value : List Char // '"' ∉ value }

mutual

inductive Cfg where
  | name (word : Word)
  | pair (key : Word) (value : Unquoted)
  | all (args : CfgArgs)
  | any (args : CfgArgs)
  | not (arg : Cfg) (comma : Bool)

/-- Arguments and the commas between them; `more arg none` ends in a comma. -/
inductive CfgArgs where
  | none
  | last (arg : Cfg)
  | more (arg : Cfg) (args : CfgArgs)

end

inductive Flag where
  | name (word : Token)
  | pair (key value : Token)
deriving DecidableEq, Repr

def Flag.line : Flag → List Char
  | .name word => word
  | .pair key value => key ++ '=' :: '"' :: value ++ ['"']

/-- The line can be told apart again. -/
def Flag.Plain : Flag → Prop
  | .name word => '=' ∉ word
  | .pair key value => '=' ∉ key ∧ '"' ∉ value

mutual

def Cfg.holds (flags : List Flag) : Cfg → Bool
  | .name word => Flag.name word.1 ∈ flags
  | .pair key value => Flag.pair key.1 value.1 ∈ flags
  | .all args => (args.hold flags).all id
  | .any args => (args.hold flags).any id
  | .not arg _ => !arg.holds flags

def CfgArgs.hold (flags : List Flag) : CfgArgs → List Bool
  | .none => []
  | .last arg => [arg.holds flags]
  | .more arg args => arg.holds flags :: args.hold flags

end

mutual

def Cfg.tokens : Cfg → List Token
  | .name word => [word.1]
  | .pair key value => [key.1, ['='], '"' :: value.1 ++ ['"']]
  | .all args => "all".toList :: ['('] :: args.tokens
  | .any args => "any".toList :: ['('] :: args.tokens
  | .not arg comma =>
      "not".toList :: ['('] :: arg.tokens ++ (if comma then [[','], [')']] else [[')']])

def CfgArgs.tokens : CfgArgs → List Token
  | .none => [[')']]
  | .last arg => arg.tokens ++ [[')']]
  | .more arg args => arg.tokens ++ [','] :: args.tokens

end

section Targets

variable {flags : List Flag}

theorem dropWhile_quote {text : List Char} (h : '"' ∉ text) (hne : text ≠ []) (rest : List Char) :
    (text ++ rest).dropWhile (· = '"') = text ++ rest := by
  cases text with
  | nil => exact absurd rfl hne
  | cons char text =>
      rw [List.cons_append, List.dropWhile_cons_of_neg]
      intro hchar
      exact h (by simp [of_decide_eq_true hchar])

theorem stripQuotes_quoted {value : List Char} (h : '"' ∉ value) :
    stripQuotes ('"' :: value ++ ['"']) = value := by
  by_cases hne : value = []
  · rw [hne]
    rfl
  · have hreverse : value.reverse ≠ [] := fun heq => hne (List.reverse_eq_nil_iff.mp heq)
    have hback : (value.reverse ++ []).dropWhile (· = '"') = value.reverse ++ [] :=
      dropWhile_quote (fun hmem => h (List.mem_reverse.mp hmem)) hreverse []
    unfold stripQuotes
    rw [List.cons_append, List.dropWhile_cons_of_pos (by rfl), dropWhile_quote h hne,
      List.reverse_append, List.reverse_singleton, List.singleton_append,
      List.dropWhile_cons_of_pos (by rfl)]
    rw [List.append_nil] at hback
    rw [hback, List.reverse_reverse]

theorem targetCfgs_concat (lines : List (List Char)) (line : List Char) :
    targetCfgs (lines ++ [line]) =
      if '=' ∈ line then
        { targetCfgs lines with
          pairs := (targetCfgs lines).pairs ++
            [(line.takeWhile (· ≠ '='), stripQuotes ((line.dropWhile (· ≠ '=')).drop 1))] }
      else { targetCfgs lines with names := (targetCfgs lines).names ++ [line] } := by
  unfold targetCfgs
  rw [List.foldl_append]
  rfl

theorem Flag.targetCfgs_name {word : Token} (h : '=' ∉ word) (lines : List (List Char)) :
    targetCfgs (lines ++ [(Flag.name word).line]) =
      { targetCfgs lines with names := (targetCfgs lines).names ++ [word] } := by
  rw [targetCfgs_concat]
  exact if_neg h

theorem Flag.targetCfgs_pair {key value : Token} (hkey : '=' ∉ key) (hvalue : '"' ∉ value)
    (lines : List (List Char)) :
    targetCfgs (lines ++ [(Flag.pair key value).line]) =
      { targetCfgs lines with pairs := (targetCfgs lines).pairs ++ [(key, value)] } := by
  have hall : ∀ c ∈ key, decide (c ≠ '=') = true := by
    intro c hc
    rw [decide_eq_true_iff]
    rintro rfl
    exact hkey hc
  have hline : (Flag.pair key value).line = key ++ '=' :: ('"' :: value ++ ['"']) :=
    List.append_assoc ..
  rw [targetCfgs_concat, hline, if_pos (by simp), List.takeWhile_append_of_pos hall,
    List.dropWhile_append_of_pos hall, List.takeWhile_cons_of_neg (by simp),
    List.dropWhile_cons_of_neg (by simp), List.append_nil, List.drop_succ_cons, List.drop_zero,
    stripQuotes_quoted hvalue]

/-- What rustc printed is what was read back. -/
structure Reports (cfgs : TargetCfgs) (flags : List Flag) : Prop where
  names : ∀ word, word ∈ cfgs.names ↔ Flag.name word ∈ flags
  pairs : ∀ key value, (key, value) ∈ cfgs.pairs ↔ Flag.pair key value ∈ flags

theorem reports_targetCfgs (hplain : ∀ flag ∈ flags, flag.Plain) :
    Reports (targetCfgs (flags.map Flag.line)) flags := by
  induction flags using List.reverseRecOn with
  | nil => exact ⟨fun _ => by simp [targetCfgs], fun _ _ => by simp [targetCfgs]⟩
  | append_singleton front flag ih =>
      obtain ⟨hnames, hpairs⟩ := ih fun other hmem => hplain other (by simp [hmem])
      have hlast := hplain flag (by simp)
      rw [List.map_append, List.map_singleton]
      cases flag with
      | name word =>
          rw [Flag.targetCfgs_name hlast]
          exact ⟨fun other => by simp [hnames], fun key value => by simp [hpairs]⟩
      | pair key value =>
          rw [Flag.targetCfgs_pair hlast.1 hlast.2]
          exact ⟨fun other => by simp [hnames], fun key value => by simp [hpairs]⟩

end Targets

section Descent

variable {cfgs : TargetCfgs} {flags : List Flag} {arg : Cfg} {depth : Nat} {rest : List Token}
  {value : Bool}

theorem Word.ne_of_not_wordStart (word : Word) {char : Char} (h : wordStart char = false)
    (run : List Char) : word.1 ≠ char :: run := by
  obtain ⟨-, first, tail, rfl, hstart, -⟩ := word
  intro heq
  rw [(List.cons.inj heq).1, h] at hstart
  cases hstart

theorem Cfg.tokens_head (cfg : Cfg) :
    ∃ token rest, cfg.tokens = token :: rest ∧ token ≠ [')'] := by
  cases cfg with
  | name word => exact ⟨_, _, rfl, word.ne_of_not_wordStart (by decide) []⟩
  | pair key value => exact ⟨_, _, rfl, key.ne_of_not_wordStart (by decide) []⟩
  | all args | any args => exact ⟨_, _, rfl, by decide⟩
  | not arg comma => exact ⟨_, _, rfl, by decide⟩

/-- Neither an argument list nor a value follows. -/
def Ends (rest : List Token) : Prop := rest.head? ≠ some ['('] ∧ rest.head? ≠ some ['=']

def Reads (cfgs : TargetCfgs) (arg : Cfg) (value : Bool) : Prop :=
  ∀ depth rest, arg.tokens.length < depth → Ends rest →
    parse cfgs depth (arg.tokens ++ rest) = .ok (value, rest)

theorem parseArgs_cons (hreads : Reads cfgs arg value) (hdepth : arg.tokens.length < depth)
    {next : Token} (hends : Ends (next :: rest)) :
    parseArgs cfgs (depth + 1) (arg.tokens ++ next :: rest) =
      (parseArgs cfgs depth (if next = [','] then rest else next :: rest)).map
        fun found => (value :: found.1, found.2) := by
  obtain ⟨token, tail, htokens, hne⟩ := arg.tokens_head
  have hparse := hreads depth (next :: rest) hdepth hends
  rw [htokens, List.cons_append] at hparse ⊢
  rw [parseArgs, if_neg hne, hparse]
  dsimp only
  cases parseArgs cfgs depth (if next = [','] then rest else next :: rest) <;> rfl

theorem parseArgs_last (hreads : Reads cfgs arg value) (hdepth : arg.tokens.length + 1 < depth) :
    parseArgs cfgs depth (arg.tokens ++ [')'] :: rest) = .ok ([value], rest) := by
  obtain ⟨depth, rfl⟩ : ∃ n, depth = n + 2 := ⟨depth - 2, by omega⟩
  rw [parseArgs_cons hreads (by omega) ⟨by simp, by simp⟩, if_neg (by decide), parseArgs,
    if_pos rfl]
  rfl

theorem parseArgs_more (hreads : Reads cfgs arg value) (args : CfgArgs) {values : List Bool}
    (hargs : parseArgs cfgs depth (args.tokens ++ rest) = .ok (values, rest))
    (hdepth : arg.tokens.length < depth) :
    parseArgs cfgs (depth + 1) (arg.tokens ++ [','] :: (args.tokens ++ rest)) =
      .ok (value :: values, rest) := by
  rw [parseArgs_cons hreads hdepth ⟨by simp, by simp⟩, if_pos rfl, hargs]
  rfl

theorem reads_name (hreports : Reports cfgs flags) (word : Word) :
    Reads cfgs (.name word) ((Cfg.name word).holds flags) := by
  intro depth rest hdepth hends
  obtain ⟨depth, rfl⟩ : ∃ n, depth = n + 1 := ⟨depth - 1, by omega⟩
  rw [Cfg.tokens, List.singleton_append, parse, if_neg (by simp [hends.1]), if_neg hends.2,
    Cfg.holds]
  simp only [hreports.names]

theorem reads_pair (hreports : Reports cfgs flags) (key : Word) (value : Unquoted) :
    Reads cfgs (.pair key value) ((Cfg.pair key value).holds flags) := by
  intro depth rest hdepth _
  obtain ⟨depth, rfl⟩ : ∃ n, depth = n + 1 := ⟨depth - 1, by omega⟩
  rw [Cfg.tokens, List.cons_append, parse, if_neg (by simp), if_pos (by simp), Cfg.holds]
  simp only [List.cons_append, List.drop_succ_cons, List.drop_zero, List.nil_append,
    ← hreports.pairs]
  rw [← List.cons_append, stripQuotes_quoted value.2]

theorem parse_combinator {token : Token} (hcombinator : combinator token = true)
    {args : List Token} {values : List Bool}
    (hargs : parseArgs cfgs depth (args ++ rest) = .ok (values, rest)) :
    parse cfgs (depth + 1) (token :: ['('] :: args ++ rest) =
      (combine token values).map fun value => (value, rest) := by
  rw [List.cons_append, List.cons_append, parse, if_pos (by simp [hcombinator]),
    List.drop_succ_cons, List.drop_zero, hargs]

theorem reads_not (hreads : Reads cfgs arg value) (comma : Bool) :
    Reads cfgs (.not arg comma) (!value) := by
  intro depth rest hdepth _
  rw [Cfg.tokens, List.cons_append, List.length_cons, List.cons_append, List.length_cons,
    List.length_append] at hdepth
  obtain ⟨depth, rfl⟩ : ∃ n, depth = n + 1 := ⟨depth - 1, by omega⟩
  have hargs : parseArgs cfgs depth
      ((arg.tokens ++ if comma then [[','], [')']] else [[')']]) ++ rest) = .ok ([value], rest) := by
    rw [List.append_assoc]
    cases comma with
    | false =>
        rw [if_neg Bool.false_ne_true, List.length_singleton] at hdepth
        exact parseArgs_last hreads (by omega)
    | true =>
        rw [if_pos rfl, List.length_cons, List.length_singleton] at hdepth
        obtain ⟨depth, rfl⟩ : ∃ n, depth = n + 2 := ⟨depth - 2, by omega⟩
        exact parseArgs_more hreads .none rfl (by omega)
  exact parse_combinator (by decide) hargs

mutual

theorem Cfg.reads (hreports : Reports cfgs flags) : (cfg : Cfg) → Reads cfgs cfg (cfg.holds flags)
  | .name word => reads_name hreports word
  | .pair key value => reads_pair hreports key value
  | .not arg comma => reads_not (arg.reads hreports) comma
  | .all args => by
      intro depth rest hdepth _
      rw [Cfg.tokens, List.length_cons, List.length_cons] at hdepth
      obtain ⟨depth, rfl⟩ : ∃ n, depth = n + 1 := ⟨depth - 1, by omega⟩
      exact parse_combinator (by decide) (args.reads hreports depth rest (by omega))
  | .any args => by
      intro depth rest hdepth _
      rw [Cfg.tokens, List.length_cons, List.length_cons] at hdepth
      obtain ⟨depth, rfl⟩ : ∃ n, depth = n + 1 := ⟨depth - 1, by omega⟩
      exact parse_combinator (by decide) (args.reads hreports depth rest (by omega))

theorem CfgArgs.reads (hreports : Reports cfgs flags) : (args : CfgArgs) → ∀ depth rest,
    args.tokens.length < depth →
      parseArgs cfgs depth (args.tokens ++ rest) = .ok (args.hold flags, rest)
  | .none => by
      intro depth rest hdepth
      obtain ⟨depth, rfl⟩ : ∃ n, depth = n + 1 := ⟨depth - 1, by omega⟩
      rfl
  | .last arg => by
      intro depth rest hdepth
      rw [CfgArgs.tokens, List.length_append, List.length_singleton] at hdepth
      rw [CfgArgs.tokens, List.append_assoc, List.singleton_append,
        parseArgs_last (arg.reads hreports) hdepth]
      rfl
  | .more arg args => by
      intro depth rest hdepth
      rw [CfgArgs.tokens, List.length_append, List.length_cons] at hdepth
      obtain ⟨depth, rfl⟩ : ∃ n, depth = n + 1 := ⟨depth - 1, by omega⟩
      rw [CfgArgs.tokens, List.append_assoc, List.cons_append,
        parseArgs_more (arg.reads hreports) args (args.reads hreports depth rest (by omega))
          (by omega)]
      rfl

end

/-- A result short of its bound: what is left is shorter. -/
def Within {β : Type} (n : Nat) : Except CfgError (β × List Token) → Prop
  | .error error => error = .index
  | .ok (_, rest) => rest.length < n

/-- The bound is never reached: every step down leaves a token behind. -/
theorem within_parse (cfgs : TargetCfgs) (depth : Nat) :
    (∀ tokens : List Token, tokens.length < depth →
      Within tokens.length (parse cfgs depth tokens)) ∧
    (∀ tokens : List Token, tokens.length + 1 < depth →
      Within tokens.length (parseArgs cfgs depth tokens)) := by
  induction depth with
  | zero => exact ⟨fun _ h => absurd h (Nat.not_lt_zero _), fun _ h => absurd h (Nat.not_lt_zero _)⟩
  | succ depth ih =>
      constructor
      · intro tokens hdepth
        cases tokens with
        | nil => rfl
        | cons token rest =>
            rw [List.length_cons] at hdepth ⊢
            rw [parse]
            split
            · have hargs := ih.2 (rest.drop 1)
              rw [List.length_drop] at hargs
              split
              · rename_i error herror
                rw [herror] at hargs
                cases rest with
                | nil => simp_all
                | cons next rest => exact hargs (by rw [List.length_cons] at hdepth ⊢; omega)
              · rename_i values left hleft
                rw [hleft] at hargs
                cases rest with
                | nil => simp_all
                | cons next rest =>
                    have hshort : left.length < (next :: rest).length - 1 :=
                      hargs (by rw [List.length_cons] at hdepth ⊢; omega)
                    cases hvalue : combine token values with
                    | error error =>
                        unfold combine at hvalue
                        split at hvalue
                        · cases hvalue
                        · split at hvalue
                          · cases hvalue
                          · split at hvalue <;> cases hvalue
                            rfl
                    | ok value =>
                        change left.length < _
                        omega
            · split
              · split
                · rfl
                · rename_i value left hleft
                  have hlength := congrArg List.length hleft
                  rw [List.length_drop, List.length_cons] at hlength
                  change left.length < _
                  omega
              · exact Nat.lt_succ_self _
      · intro tokens hdepth
        cases tokens with
        | nil => rfl
        | cons token rest =>
            rw [List.length_cons] at hdepth ⊢
            rw [parseArgs]
            split
            · exact Nat.lt_succ_self _
            · have hparse := ih.1 (token :: rest) (by rw [List.length_cons]; omega)
              rw [List.length_cons] at hparse
              split
              · rename_i error herror
                rw [herror] at hparse
                exact hparse
              · rfl
              · rename_i arg next left hleft
                rw [hleft] at hparse
                have hshort : (next :: left).length < rest.length + 1 := hparse
                rw [List.length_cons] at hshort
                have hmore := ih.2 (if next = [','] then left else next :: left)
                have hlength : (if next = [','] then left else next :: left).length ≤
                    left.length + 1 := by
                  split
                  · exact Nat.le_succ _
                  · exact Nat.le_refl _
                specialize hmore (by omega)
                split
                · rename_i error herror
                  rw [herror] at hmore
                  exact hmore
                · rename_i args left' hleft'
                  rw [hleft'] at hmore
                  have hless : left'.length < _ := hmore
                  change left'.length < _
                  omega

end Descent

section Layout

def idle (char : Char) : Bool := !wordStart char && char ≠ '"' && !punctuation char

def Proper (token : Token) : Prop :=
  (∃ word : Word, token = word.1) ∨ (∃ value : Unquoted, token = '"' :: value.1 ++ ['"']) ∨
    ∃ char, punctuation char = true ∧ token = [char]

/-- `token` does not run on into `text`. -/
def apart (token : Token) (text : List Char) : Bool :=
  match token.getLast?, text.head? with
  | some last, some next => !(wordPart last && wordPart next)
  | _, _ => true

/-- The tokens in order, anything idle between them, no two words run together. -/
inductive Spaced : List Token → List Char → Prop where
  | last {gap : List Char} (hgap : ∀ c ∈ gap, idle c = true) : Spaced [] gap
  | token {gap : List Char} {token : Token} {tokens : List Token} {text : List Char}
      (hgap : ∀ c ∈ gap, idle c = true)
      (hapart : apart token text = true) (hrest : Spaced tokens text) : Spaced (token :: tokens) (gap ++ (token ++ text))

variable {token : Token} {tokens : List Token} {text gap : List Char}

theorem laid_gap (hgap : ∀ c ∈ gap, idle c = true) (h : Laid tokenWidth tokens text) :
    Laid tokenWidth tokens (gap ++ text) := by
  induction gap with
  | nil => exact h
  | cons char gap ih =>
      refine .gap ?_ (ih fun c hc => hgap c (by simp [hc]))
      have hidle := hgap char (by simp)
      simp only [idle, Bool.and_eq_true, Bool.not_eq_true', decide_eq_true_eq] at hidle
      simp [tokenWidth, hidle]

theorem takeWhile_wordPart {last : Char} (hlast : token.getLast? = some last)
    (hpart : wordPart last = true) (hapart : apart token text = true) :
    text.takeWhile wordPart = [] := by
  cases text with
  | nil => rfl
  | cons char text =>
      rw [apart, hlast] at hapart
      simp only [List.head?_cons, hpart, Bool.true_and, Bool.not_eq_true'] at hapart
      rw [List.takeWhile_cons_of_neg (by simp [hapart])]

theorem tokenWidth_proper (h : Proper token) (hapart : apart token text = true) :
    token ≠ [] ∧ tokenWidth (token ++ text) = token.length := by
  rcases h with ⟨⟨-, char, run, rfl, hstart, hrun⟩, rfl⟩ | ⟨value, rfl⟩ | ⟨char, hchar, rfl⟩
  · refine ⟨List.cons_ne_nil _ _, ?_⟩
    have hlast : ∃ last, (char :: run).getLast? = some last ∧ wordPart last = true := by
      refine ⟨_, List.getLast?_eq_some_getLast (List.cons_ne_nil char run), ?_⟩
      rcases List.mem_cons.mp (List.getLast_mem (List.cons_ne_nil char run)) with hfirst | hrest
      · rw [hfirst, wordPart, hstart, Bool.true_or]
      · exact hrun _ hrest
    obtain ⟨last, hlast, hpart⟩ := hlast
    have hnone := takeWhile_wordPart hlast hpart hapart
    rw [List.cons_append, tokenWidth, if_pos hstart, List.takeWhile_append_of_pos hrun, hnone,
      List.append_nil, List.length_cons]
  · refine ⟨List.cons_ne_nil _ _, ?_⟩
    have hall : ∀ c ∈ value.1, decide (c ≠ '"') = true := by
      intro c hc
      rw [decide_eq_true_iff]
      rintro rfl
      exact value.2 hc
    have hstart : wordStart '"' = false := by decide
    simp only [List.cons_append, List.append_assoc, List.nil_append, tokenWidth, hstart]
    rw [if_neg Bool.false_ne_true, if_pos trivial, if_pos (by simp), List.takeWhile_append_of_pos hall,
      List.takeWhile_cons_of_neg (by simp), List.append_nil, List.length_cons, List.length_append,
      List.length_singleton]
  · refine ⟨List.cons_ne_nil _ _, ?_⟩
    have hstart : wordStart char = false ∧ char ≠ '"' := by
      simp only [punctuation, Bool.or_eq_true, decide_eq_true_eq] at hchar
      rcases hchar with ((rfl | rfl) | rfl) | rfl <;> decide
    rw [List.singleton_append, tokenWidth, if_neg (by simp [hstart.1]), if_neg hstart.2,
      if_pos hchar, List.length_singleton]

theorem laid_of_spaced (hproper : ∀ token ∈ tokens, Proper token) (h : Spaced tokens text) :
    Laid tokenWidth tokens text := by
  induction h with
  | last hgap =>
      have hlaid := laid_gap hgap Laid.last
      rwa [List.append_nil] at hlaid
  | @token gap token tokens text hgap hapart _ ih =>
      obtain ⟨hne, hwidth⟩ := tokenWidth_proper (hproper token (by simp)) hapart
      exact laid_gap hgap (.token hne hwidth (ih fun other hmem => hproper other (by simp [hmem])))

theorem proper_combinator (token : Token) (h : combinator token = true) : Proper token := by
  have hcases : token = "all".toList ∨ token = "any".toList ∨ token = "not".toList := by
    simpa only [combinator, Bool.or_eq_true, decide_eq_true_eq, or_assoc] using h
  refine .inl ⟨⟨token, ?_⟩, rfl⟩
  rcases hcases with rfl | rfl | rfl
  · exact ⟨'a', ['l', 'l'], rfl, by decide, List.all_eq_true.mp (by decide)⟩
  · exact ⟨'a', ['n', 'y'], rfl, by decide, List.all_eq_true.mp (by decide)⟩
  · exact ⟨'n', ['o', 't'], rfl, by decide, List.all_eq_true.mp (by decide)⟩

theorem proper_punctuation {char : Char} (h : punctuation char = true) : Proper [char] :=
  .inr (.inr ⟨char, h, rfl⟩)

mutual

theorem Cfg.proper_tokens : (cfg : Cfg) → ∀ token ∈ cfg.tokens, Proper token
  | .name word => by
      intro token hmem
      exact .inl ⟨word, List.mem_singleton.mp hmem⟩
  | .pair key value => by
      intro token hmem
      simp only [Cfg.tokens, List.mem_cons, List.not_mem_nil, or_false] at hmem
      rcases hmem with rfl | rfl | rfl
      · exact .inl ⟨key, rfl⟩
      · exact proper_punctuation (by decide)
      · exact .inr (.inl ⟨value, rfl⟩)
  | .all args | .any args => by
      intro token hmem
      rw [Cfg.tokens, List.mem_cons, List.mem_cons] at hmem
      rcases hmem with rfl | rfl | hmem
      · exact proper_combinator _ (by decide)
      · exact proper_punctuation (by decide)
      · exact args.proper_tokens token hmem
  | .not arg comma => by
      intro token hmem
      rw [Cfg.tokens, List.cons_append, List.mem_cons, List.cons_append, List.mem_cons,
        List.mem_append] at hmem
      rcases hmem with rfl | rfl | hmem | hmem
      · exact proper_combinator _ (by decide)
      · exact proper_punctuation (by decide)
      · exact arg.proper_tokens token hmem
      · cases comma
        · rw [List.mem_singleton.mp hmem]
          exact proper_punctuation (by decide)
        · rcases List.mem_cons.mp hmem with rfl | hmem
          · exact proper_punctuation (by decide)
          · rw [List.mem_singleton.mp hmem]
            exact proper_punctuation (by decide)

theorem CfgArgs.proper_tokens : (args : CfgArgs) → ∀ token ∈ args.tokens, Proper token
  | .none => by
      intro token hmem
      rw [List.mem_singleton.mp hmem]
      exact proper_punctuation (by decide)
  | .last arg => by
      intro token hmem
      rcases List.mem_append.mp hmem with hmem | hmem
      · exact arg.proper_tokens token hmem
      · rw [List.mem_singleton.mp hmem]
        exact proper_punctuation (by decide)
  | .more arg args => by
      intro token hmem
      rcases List.mem_append.mp hmem with hmem | hmem
      · exact arg.proper_tokens token hmem
      · rcases List.mem_cons.mp hmem with rfl | hmem
        · exact proper_punctuation (by decide)
        · exact args.proper_tokens token hmem

end

end Layout

/-- `cfg_holds` answers every expression, however it is spaced and wherever it
has trailing commas, by what rustc says holds for the triple. -/
theorem cfgHolds_iff {rustc : List Char → List (List Char)} {triple : List Char}
    {flags : List Flag} (hplain : ∀ flag ∈ flags, flag.Plain)
    (hrustc : rustc triple = flags.map Flag.line) (cfg : Cfg) {text : List Char}
    (htext : Spaced cfg.tokens text) :
    cfgHolds rustc ("cfg(".toList ++ text ++ [')']) triple = .ok (cfg.holds flags) := by
  have hscan : scan tokenWidth 0 text = cfg.tokens :=
    scan_of_laid (laid_of_spaced cfg.proper_tokens htext)
  have hparse := cfg.reads (reports_targetCfgs hplain) (cfg.tokens.length + 2) [] (by omega)
    ⟨by simp, by simp⟩
  have hprefix : "cfg(".toList.isPrefixOf ("cfg(".toList ++ text ++ [')']) = true := by
    rw [List.isPrefixOf_iff_prefix, List.append_assoc]
    exact List.prefix_append _ _
  have hbody : (("cfg(".toList ++ text ++ [')']).drop 4).dropLast = text := by
    rw [List.append_assoc]
    exact List.dropLast_concat
  rw [List.append_nil] at hparse
  unfold cfgHolds
  rw [if_pos hprefix, hbody]
  dsimp only
  rw [hscan, hrustc, hparse]
  rfl

def Sample.notMacos : Cfg :=
  .not (.pair ⟨"target_os".toList, 't', "arget_os".toList, by decide, by decide,
    List.all_eq_true.mp (by decide)⟩ ⟨"macos".toList, by decide⟩) true

def Sample.notMacosText : List Char :=
  [] ++ ("not".toList ++ ([] ++ (['('] ++ ([' '] ++ ("target_os".toList ++ ([] ++ (['='] ++ ([] ++
    ("\"macos\"".toList ++ ([] ++ ([','] ++ ([] ++ ([')'] ++ [])))))))))))))

theorem cfgHolds_iff_not_macos :
    cfgHolds (fun _ => ["unix".toList, "target_os=\"linux\"".toList])
      ("cfg(".toList ++ Sample.notMacosText ++ [')']) "x86_64-unknown-linux-gnu".toList =
        .ok true := by
  have hgap : ∀ c ∈ ([] : List Char), idle c = true := List.forall_mem_nil _
  have htext : Spaced Sample.notMacos.tokens Sample.notMacosText :=
    .token hgap (by decide) (.token hgap (by decide) (.token (List.all_eq_true.mp (by decide))
      (by decide) (.token hgap (by decide) (.token hgap (by decide) (.token hgap (by decide)
        (.token hgap (by decide) (.last hgap)))))))
  have hplain : ∀ flag ∈ [Flag.name "unix".toList, .pair "target_os".toList "linux".toList],
      flag.Plain := by simp [Flag.Plain]
  exact cfgHolds_iff hplain rfl Sample.notMacos htext

/-- Every expression gets an answer or an `IndexError`. -/
theorem cfgHolds_ends (rustc : List Char → List (List Char)) (expr triple : List Char) :
    cfgHolds rustc expr triple ≠ .error .tooDeep := by
  unfold cfgHolds
  split
  · dsimp only
    generalize scan tokenWidth 0 (expr.drop 4).dropLast = tokens
    have hwithin := (within_parse (targetCfgs (rustc triple)) (tokens.length + 2)).1 tokens
      (by omega)
    cases hparse : parse (targetCfgs (rustc triple)) (tokens.length + 2) tokens with
    | ok found => nofun
    | error error =>
        rw [hparse] at hwithin
        obtain rfl : error = .index := hwithin
        nofun
  · nofun

end AccountDirectory.Native

import GraphQL.CommandLine.Tokens
import GraphQL.Proofs.Lexing.Source
import Mathlib.Algebra.Ring.Nat

/-! The listing of the tokens of a file.

A line tells where a token stands and what it is, and all of that is read back from the
line. What strings mean stands in the listing as it is, so a token takes a line more for
every line feed in its value. -/

namespace GraphQL

/-! ## Splitting texts -/

namespace Text

variable {separator : Char}

theorem splitAtChar_eq_splitOn (separator : Char) (text : List Char) :
    splitAtChar separator text = text.splitOn separator := by
  induction text with
  | nil => rfl
  | cons char rest induction =>
      rw [splitAtChar, induction, List.splitOn_eq_splitOnP, List.splitOn_eq_splitOnP,
        List.splitOnP_cons_eq_if_modifyHead]
      by_cases same : char = separator
      · simp [same]
      · have nonempty := List.splitOnP_ne_nil (· == separator) rest
        obtain ⟨part, more, equal⟩ := List.exists_cons_of_ne_nil nonempty
        simp [same, equal]

theorem length_splitOn (separator : Char) (text : List Char) :
    (text.splitOn separator).length = text.count separator + 1 := by
  induction text with
  | nil => rfl
  | cons char rest induction =>
      rw [List.splitOn_eq_splitOnP] at induction ⊢
      rw [List.splitOnP_cons_eq_if_modifyHead, List.count_cons]
      split <;> simp [*]

theorem splitString_append (first second : String) :
    splitString separator (first ++ String.ofList [separator] ++ second) =
      splitString separator first ++ splitString separator second := by
  have split := List.splitOnP_append_cons first.toList second.toList
    (p := (· == separator)) (beq_self_eq_true separator)
  simp only [splitString, splitAtChar_eq_splitOn, String.toList_append,
    String.toList_ofList,
    List.append_assoc, List.singleton_append, List.splitOn_eq_splitOnP, split,
      List.map_append]

theorem splitString_of_not_mem {text : String} (unbroken : separator ∉ text.toList) :
    splitString separator text = [text] := by
  have whole : ∀ row ∈ [text.toList], separator ∉ row :=
    List.forall_mem_singleton.mpr unbroken
  have parts := List.splitOn_intercalate separator whole (List.cons_ne_nil _ _)
  unfold splitString
  rw [splitAtChar_eq_splitOn]
  simp_all

theorem trimEnd_append_lineFeed {text : String} (front : List Char) {last : Char}
    (ends : text.toList = front ++ [last]) (notBlank : isWhiteSpace last = false) :
    trimEnd (text ++ "\n") = text := by
  have reversed : (text ++ "\n").toList.reverse = '\n' :: last :: front.reverse := by
    rw [String.toList_append, ends]
    simp
  have isBlank : isWhiteSpace '\n' = true := rfl
  rw [trimEnd, reversed, List.dropWhile_cons_of_pos isBlank,
    List.dropWhile_cons_of_neg (by simp [notBlank]), List.reverse_cons,
      List.reverse_reverse, ← ends,
    String.ofList_toList]

end Text

namespace Tokens

open Text

/-! ## Reading a line back -/

structure Entry where
  location : Location
  span : Span
  kind : TokenKind
  description : String
  deriving DecidableEq, Repr

/-- The number behind the blanks at the front of a text, and what follows it -/
def numeral (text : List Char) : Nat × List Char :=
  let digits := text.dropWhile (· == ' ')
  (Nat.ofDigitChars 10 (digits.takeWhile Char.isDigit) 0, digits.dropWhile Char.isDigit)

def kinds : List TokenKind :=
  [.startOfFile, .endOfFile, .name, .integer, .float, .string, .blockString, .comment] ++
    [.ampersand, .atSign, .bang, .colon, .dollar, .equals, .leftBrace, .leftBracket,
      .leftParen, .pipe, .rightBrace, .rightBracket, .rightParen, .spread].map .punctuator

/-- The kind that a description begins with. It ends in front of the value,
if there is one. -/
def kindOf? (description : List Char) : Option TokenKind :=
  kinds.find? (·.description.toList == description.takeWhile (· != ' '))

/-- What a line tells, if it is one of a listing. -/
def Entry.ofLine? (line : String) : Option Entry :=
  let (row, rest) := numeral line.toList
  match rest with
  | ':' :: rest =>
      let (column, rest) := numeral rest
      let (start, rest) := numeral rest
      match rest with
      | '.' :: '.' :: rest =>
          let (stop, rest) := numeral rest
          let description := rest.dropWhile (· == ' ')
          (kindOf? description).map fun kind =>
            ⟨⟨row, column⟩, ⟨start, stop⟩, kind, String.ofList description⟩
      | _ => none
  | _ => none

end Tokens

open Tokens in
def Token.entry (token : Token) : Entry :=
  ⟨token.start.location, token.span, token.kind, token.description⟩

example : Tokens.Entry.ofLine? "    1:3         2..6      Name \"hero\"" =
    some ⟨⟨1, 3⟩, ⟨2, 6⟩, .name, "Name \"hero\""⟩ := by decide +kernel

namespace Tokens

open Text

theorem numeral_append (blanks number : Nat) {rest : List Char}
    (ends : ∀ char ∈ rest.head?, char.isDigit = false) :
    numeral (List.replicate blanks ' ' ++ ((toString number).toList ++ rest)) =
      (number, rest) := by
  have isDigit : ∀ char ∈ Nat.toDigits 10 number, char.isDigit = true :=
    fun char member => Nat.isDigit_of_mem_toDigits (by decide) (by decide) member
  obtain ⟨first, digits, equal⟩ :=
    List.exists_cons_of_ne_nil (Nat.toDigits_ne_nil (n := number) (b := 10))
  have notBlank : (first == ' ') = false := by
    have isDigit := isDigit first (equal ▸ List.mem_cons_self)
    refine beq_eq_false_iff_ne.mpr fun blank => ?_
    rw [blank] at isDigit
    cases isDigit
  have unblank :
      (List.replicate blanks ' ' ++ (Nat.toDigits 10 number ++ rest)).dropWhile
        (· == ' ') =
      Nat.toDigits 10 number ++ rest := by
    rw [List.dropWhile_append_of_pos (by simp), equal, List.cons_append,
      List.dropWhile_cons, notBlank]
    rfl
  have stops : rest.takeWhile Char.isDigit = [] ∧ rest.dropWhile Char.isDigit = rest := by
    cases rest with
    | nil => exact ⟨rfl, rfl⟩
    | cons char rest => simpa using ends char rfl
  unfold numeral
  rw [Nat.toString_eq_repr, Nat.toList_repr, unblank]
  simp only [List.takeWhile_append_of_pos isDigit, List.dropWhile_append_of_pos isDigit,
    stops, List.append_nil, Nat.ofDigitChars_ten_toDigits]

theorem kindOf?_description (kind : TokenKind) :
    kinds.find? (·.description.toList == kind.description.toList) = some kind ∧
      ' ' ∉ kind.description.toList := by
  cases kind with
  | punctuator mark => cases mark <;> decide +kernel
  | _ => decide +kernel

theorem kindOf?_toList_description (token : Token) :
    kindOf? token.description.toList = some token.kind ∧
      token.description.toList.dropWhile (· == ' ') = token.description.toList := by
  obtain ⟨found, unbroken⟩ := kindOf?_description token.kind
  have nonempty : token.kind.description.toList ≠ [] := by
    cases token.kind with
    | punctuator mark => simp [TokenKind.description]
    | _ => decide +kernel
  obtain ⟨char, rest, equal⟩ := List.exists_cons_of_ne_nil nonempty
  have word : ∀ char ∈ token.kind.description.toList, (char != ' ') = true := by
    intro char member
    exact bne_iff_ne.mpr fun blank => unbroken (blank ▸ member)
  have begins :
      ∃ value, token.description.toList = token.kind.description.toList ++ value ∧
      value.takeWhile (· != ' ') = [] := by
    unfold Token.description Lexeme.description
    split
    · exact ⟨_, by rw [String.toList_append, String.toList_append, String.toList_append,
        List.append_assoc, List.append_assoc]; rfl, rfl⟩
    · exact ⟨[], (List.append_nil _).symm, rfl⟩
  obtain ⟨value, description, ends⟩ := begins
  constructor
  · rw [kindOf?, description, List.takeWhile_append_of_pos word, ends, List.append_nil]
    exact found
  · rw [description, equal, List.cons_append, List.dropWhile_cons, if_neg]
    simpa using word char (equal ▸ List.mem_cons_self)

theorem exists_toList_tokenLine (token : Token) : ∃ before between behind : Nat,
    (tokenLine token).toList =
      List.replicate before ' ' ++ ((toString token.line).toList ++ ':' ::
      (List.replicate 0 ' ' ++
        ((toString token.column).toList ++ (List.replicate (between + 1) ' ' ++
        ((toString token.span.start).toList ++ '.' :: '.' :: (List.replicate 0 ' ' ++
          ((toString token.span.stop).toList ++ (List.replicate (behind + 1) ' ' ++
            token.description.toList)))))))) := by
  have blanks (count more : Nat) (rest : List Char) : List.replicate count ' ' ++ ' ' ::
      (List.replicate more ' ' ++ rest) =
        List.replicate (count + more + 1) ' ' ++ rest := by
    rw [Nat.add_assoc, ← List.replicate_append_replicate, List.replicate_succ,
      List.append_assoc, List.cons_append]
  have gap := blanks (4 - (toString token.column).length)
    (6 - (toString token.span.start).length)
  have last (count : Nat) (rest : List Char) : List.replicate count ' ' ++ ' ' :: rest =
      List.replicate (count + 1) ' ' ++ rest := blanks count 0 rest
  refine ⟨5 - (toString token.line).length, (4 - (toString token.column).length) +
    (6 - (toString token.span.start).length), 6 - (toString token.span.stop).length, ?_⟩
  rw [← gap, ← last]
  simp [tokenLine, padLeft, padRight]

/-- Whatever a token says, its line tells where it stands and what it is. -/
theorem ofLine?_tokenLine (token : Token) :
    Entry.ofLine? (tokenLine token) = some token.entry := by
  obtain ⟨before, between, behind, line⟩ := exists_toList_tokenLine token
  obtain ⟨kind, begins⟩ := kindOf?_toList_description token
  have mark (blanks number : Nat) (char : Char) (rest : List Char)
      (ends : char.isDigit = false) :
      numeral (List.replicate blanks ' ' ++ ((toString number).toList ++ char :: rest)) =
        (number, char :: rest) :=
    numeral_append blanks number (by simpa using ends)
  have blank (blanks number more : Nat) (rest : List Char) :
      numeral (List.replicate blanks ' ' ++
        ((toString number).toList ++ (List.replicate (more + 1) ' ' ++ rest))) =
        (number, List.replicate (more + 1) ' ' ++ rest) :=
    numeral_append blanks number (by simp [List.replicate_succ])
  have unblank :
      (List.replicate (behind + 1) ' ' ++ token.description.toList).dropWhile (· == ' ') =
      token.description.toList := by
    rw [List.dropWhile_append_of_pos (by simp), begins]
  unfold Entry.ofLine?
  simp only [line, mark _ _ ':' _ rfl, mark _ _ '.' _ rfl, blank, unblank, kind,
    Option.map_some, String.ofList_toList]
  rfl

/-! ## The lines of a listing -/

def lineFeeds (token : Token) : Nat := (token.value.getD "").toList.count '\n'

theorem count_lineFeed_kind (kind : TokenKind) :
    kind.description.toList.count '\n' = 0 := by
  cases kind with
  | punctuator mark => cases mark <;> decide +kernel
  | _ => decide +kernel

theorem count_lineFeed_number (number : Nat) :
    (toString number).toList.count '\n' = 0 := by
  rw [Nat.toString_eq_repr, Nat.toList_repr]
  refine List.count_eq_zero.mpr fun member => ?_
  cases Nat.isDigit_of_mem_toDigits (by decide) (by decide) member

theorem count_lineFeed_tokenLine (token : Token) :
    (tokenLine token).toList.count '\n' = lineFeeds token := by
  have description : token.description.toList.count '\n' = lineFeeds token := by
    have blank : " \"".toList = [' ', '"'] := rfl
    have quote : "\"".toList = ['"'] := rfl
    unfold Token.description Lexeme.description lineFeeds Token.value
    split
    next value equal => simp [count_lineFeed_kind, equal, blank, quote]
    next equal => simp [count_lineFeed_kind, equal]
  obtain ⟨before, between, behind, line⟩ := exists_toList_tokenLine token
  rw [line]
  simp [List.count_replicate, count_lineFeed_number, description, -Nat.toString_eq_repr]

def linesOf (tokens : List Token) : List String :=
  tokens.flatMap fun token => splitString '\n' (tokenLine token)

theorem length_linesOf (tokens : List Token) :
    (linesOf tokens).length = tokens.length + (tokens.map lineFeeds).sum := by
  induction tokens with
  | nil => rfl
  | cons token tokens induction =>
      have own : (splitString '\n' (tokenLine token)).length = lineFeeds token + 1 := by
        rw [splitString, List.length_map, splitAtChar_eq_splitOn, length_splitOn,
          count_lineFeed_tokenLine]
      rw [linesOf, List.flatMap_cons, List.length_append, own, ← linesOf, induction]
      simp only [List.length_cons, List.map_cons, List.sum_cons]
      omega

theorem linesOf_of_flat {tokens : List Token}
    (flat : ∀ token ∈ tokens, lineFeeds token = 0) :
    linesOf tokens = tokens.map tokenLine := by
  induction tokens with
  | nil => rfl
  | cons token tokens induction =>
      have unbroken :=
        List.count_eq_zero.mp
          ((count_lineFeed_tokenLine token).trans (flat token List.mem_cons_self))
      rw [linesOf, List.flatMap_cons, splitString_of_not_mem unbroken, ← linesOf,
        induction fun token member => flat token (List.mem_cons_of_mem _ member)]
      rfl

theorem printLines_concat (tokens : List Token) (last : Token) :
    printLines (tokens ++ [last]) = printLines tokens ++ tokenLine last ++ "\n" := by
  simp [printLines, String.append_assoc]

theorem splitString_printLines (tokens : List Token) (last : Token) :
    splitString '\n' (printLines tokens ++ tokenLine last) =
      linesOf (tokens ++ [last]) := by
  induction tokens with
  | nil => simp [printLines, linesOf]
  | cons token tokens induction =>
      have first : printLines (token :: tokens) =
          tokenLine token ++ "\n" ++ printLines tokens := by
        rw [printLines, List.map_cons, String.join_cons, ← printLines]
      rw [first, String.append_assoc, List.cons_append, linesOf, List.flatMap_cons,
        ← linesOf, ← induction]
      exact splitString_append ..

/-- The listing ends with the mark of the end, so that only the last line
feed is taken away. -/
theorem trimEnd_printLines {source : Source} {tokens : List Token}
    (tokenized : tokenize source = .ok tokens) :
    ∃ front last, tokens = front ++ [last] ∧
      trimEnd (printLines tokens) = printLines front ++ tokenLine last := by
  obtain ⟨front, last, rfl, atEnd, -⟩ := (tokenize_eq_ok.mp tokenized).last
  refine ⟨front, last, rfl, ?_⟩
  have description : last.description = "<EOF>" := by
    rw [Token.description, atEnd]
    rfl
  obtain ⟨before, line⟩ : ∃ before, tokenLine last = before ++ "<EOF>" :=
    ⟨_, by rw [tokenLine, description]⟩
  rw [printLines_concat, line]
  have ends : (printLines front ++ (before ++ "<EOF>")).toList =
      ((printLines front ++ before).toList ++ ['<', 'E', 'O', 'F']) ++ ['>'] := by simp
  exact trimEnd_append_lineFeed _ ends rfl

/-- A file that can be read as tokens is listed token by token. A token takes one line
more for every line feed in what it stands for. If there is none in any of them, the
entries of all tokens are read back from the lines. -/
theorem run_lists {system : FileSystem} {path body : String} {tokens : List Token}
    (read : system.readText path = .ok body)
    (tokenized : tokenize { body, name := path } = .ok tokens) :
    (run system path).succeeded = true ∧ (run system path).stderr = none ∧
      ∃ text, (run system path).stdout = some text ∧ printLines tokens = text ++ "\n" ∧
        splitString '\n' text = linesOf tokens ∧
        (splitString '\n' text).length = tokens.length + (tokens.map lineFeeds).sum ∧
        ((∀ token ∈ tokens, lineFeeds token = 0) →
          splitString '\n' text = tokens.map tokenLine ∧
          (splitString '\n' text).map Entry.ofLine? = tokens.map (some ·.entry)) := by
  have outcome : run system path =
      { succeeded := true, stdout := some (trimEnd (printLines tokens)),
        stderr := none } := by
    simp only [run, read, tokensOf, tokenized, Except.mapError]
    rfl
  obtain ⟨front, last, rfl, trimmed⟩ := trimEnd_printLines tokenized
  rw [outcome, trimmed]
  refine ⟨rfl, rfl, _, rfl, printLines_concat front last,
    splitString_printLines front last, ?_, fun flat => ?_⟩
  · rw [splitString_printLines, length_linesOf]
  · rw [splitString_printLines, linesOf_of_flat flat, List.map_map]
    refine ⟨rfl, List.map_congr_left fun token _ => ?_⟩
    rw [Function.comp_apply, ofLine?_tokenLine]

def alone (body : String) : FileSystem :=
  ⟨.directory [("a.graphql", .file (some body))], []⟩

theorem comment_listed : ∃ (text : String) (tokens : List Token),
    (alone "hero # done").readText "a.graphql" = .ok "hero # done" ∧
    tokenize { body := "hero # done", name := "a.graphql" } = .ok tokens ∧
    (run (alone "hero # done") "a.graphql").stdout = some text ∧ tokens.length = 4 ∧
    (splitString '\n' text).map Entry.ofLine? = tokens.map (some ·.entry) := by
  let tokens : List Token :=
    [.startOfFile, ⟨.name "hero", .origin, 4, 1, 1⟩,
      ⟨.comment " done", ⟨5, ⟨1, 6⟩⟩, 11, 2, 2⟩, ⟨.endOfFile, ⟨11, ⟨1, 12⟩⟩, 11, 3, 2⟩]
  have read : (alone "hero # done").readText "a.graphql" = .ok "hero # done" := by
    decide +kernel
  have tokenized : tokenize { body := "hero # done", name := "a.graphql" } =
      .ok tokens := by decide +kernel
  obtain ⟨-, -, text, printed, -, -, -, flat⟩ := run_lists read tokenized
  exact ⟨text, tokens, read, tokenized, printed, rfl, (flat (by decide +kernel)).2⟩

/-- The three tokens of a string with an escaped line feed take four lines. -/
theorem lineFeed_listed : ∃ (text : String) (tokens : List Token),
    (alone "\"a\\nb\"").readText "a.graphql" = .ok "\"a\\nb\"" ∧
    tokenize { body := "\"a\\nb\"", name := "a.graphql" } = .ok tokens ∧
    (run (alone "\"a\\nb\"") "a.graphql").stdout = some text ∧ tokens.length = 3 ∧
    splitString '\n' text =
      ["    1:1         0..0      <SOF>", "    1:1         0..6      String \"a", "b\"",
      "    1:7         6..6      <EOF>"] := by
  let tokens : List Token :=
    [.startOfFile, ⟨.string "a\nb", .origin, 6, 1, 1⟩, ⟨.endOfFile, ⟨6, ⟨1, 7⟩⟩, 6, 2, 2⟩]
  refine ⟨trimEnd (printLines tokens), tokens, ?_, ?_, ?_, rfl, ?_⟩
  all_goals decide +kernel

end Tokens

end GraphQL

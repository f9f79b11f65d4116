import GraphQL.Proofs.Lexing.Misread
import GraphQL.Proofs.Locating.Excerpt
import GraphQL.Proofs.Parsing.Faults
import GraphQL.Syntax.Outline
import Mathlib.Data.List.Forall2

/-! Every diagnostic can be shown.

What is wrong with a source is reported at one of its characters or at its end, whether a
token cannot be read there or does not fit. -/

namespace GraphQL

open Text

open ParseOptions (Note)

variable {α : Type} {source : Source} {tokens : List Token} {ending : Option LexicalError}
variable {error : LexicalError}

/-! ## Where things are reported -/

theorem Source.IsBoundary.le_size {offset : Nat} (boundary : source.IsBoundary offset) :
    offset ≤ source.size := by
  obtain ⟨passed, rest, whole, rfl⟩ := boundary
  rw [source.size_eq, whole, byteSize_append]
  exact Nat.le_add_right ..

theorem Token.IsPlaced.isBoundary {token : Token} (placed : token.IsPlaced source) :
    source.IsBoundary token.start.offset := by
  obtain ⟨before, rest, whole, offset, _⟩ := placed.counts
  exact ⟨before, rest, whole, offset⟩

/-! ## What diagnostics show -/

namespace Diagnostic

/-- There is an excerpt for every place of a diagnostic, in the order of the places. -/
def Excerpts (diagnostic : Diagnostic) (excerpts : List String) : Prop :=
  List.Forall₂ (fun location excerpt => ∃ source, diagnostic.source = some source ∧
    source.excerpt location = .ok excerpt) diagnostic.locations excerpts

theorem exists_excerpts (diagnostic : Diagnostic) :
    ∃ excerpts, diagnostic.Excerpts excerpts ∧
      diagnostic.detailed = "\n\n".intercalate (diagnostic.fullMessage :: excerpts) := by
  cases named : diagnostic.source with
  | none =>
      refine ⟨[], ?_, by rw [detailed, named]; rfl⟩
      rw [Excerpts, locations, named]
      exact .nil
  | some source =>
      refine ⟨diagnostic.locations.map (excerptOrNote source), ?_,
        by rw [detailed, named]⟩
      rw [Excerpts, List.forall₂_map_right_iff, List.forall₂_same, locations, named]
      intro location member
      obtain ⟨offset, _, rfl⟩ := List.mem_map.mp member
      obtain ⟨excerpt, shown⟩ := source.exists_excerpt_locationAt offset
      refine ⟨source, rfl, ?_⟩
      rw [excerptOrNote, shown]

/-- The report is on one place, at a character of the source or at its end, and
shows it behind the message. -/
structure Pinpoints (source : Source) (diagnostic : Diagnostic) : Prop where
  source_eq : diagnostic.source = some source
  shows : ∃ offset excerpt, source.IsBoundary offset ∧ offset ≤ source.size ∧
    diagnostic.locations = [source.locationAt offset] ∧
    source.excerpt (source.locationAt offset) = .ok excerpt ∧
    diagnostic.detailed = diagnostic.fullMessage ++ "\n\n" ++ excerpt

theorem pinpoints {diagnostic : Diagnostic} {offset : Nat}
    (source_eq : diagnostic.source = some source)
    (offsets : diagnostic.offsets = [offset]) (boundary : source.IsBoundary offset) :
    diagnostic.Pinpoints source := by
  have locations : diagnostic.locations = [source.locationAt offset] := by
    rw [Diagnostic.locations, source_eq, offsets]
    rfl
  obtain ⟨excerpts, shown, report⟩ := diagnostic.exists_excerpts
  rw [Excerpts, locations] at shown
  obtain ⟨excerpt, others, ⟨_, named, shown⟩, missing, rfl⟩ :=
    List.forall₂_cons_left_iff.mp shown
  obtain rfl := List.forall₂_nil_left_iff.mp missing
  obtain rfl := Option.some.inj (source_eq.symm.trans named)
  exact ⟨source_eq, offset, excerpt, boundary, boundary.le_size, locations, shown, report⟩

theorem ofLexicalError_pinpoints (yields : source.Yields tokens (some error)) :
    (ofLexicalError source error).Pinpoints source := pinpoints rfl rfl yields.isBoundary

end Diagnostic

/-! ## What a parse reports -/

theorem GrammarFault.source_diagnostic (fault : GrammarFault) (source : Source)
    (options : ParseOptions)
    (token : Token) : (fault.diagnostic source options token).source = some source := by
  cases fault with
  | unknownDirectiveLocation name =>
      cases erased : options.noLocation <;>
        simp [GrammarFault.diagnostic, erased, Diagnostic.atPosition]
  | _ => rfl

/-- Whatever the parse ends with is reported in its place. -/
theorem Ends.pinpoints {failure : Failure} {lexer : Lexer}
    (ends : Ends source tokens ending ((.error failure : Except Failure α), lexer))
    (yields : source.Yields tokens ending) (options : ParseOptions) :
    (failure.diagnostic lexer.source options lexer.significantTokens.toArray).Pinpoints
      source := by
  cases ends with
  | fault source_eq ended =>
      subst source_eq ended
      exact Diagnostic.ofLexicalError_pinpoints yields
  | @misfit fault blamed _ source_eq positive lt seen =>
      have found := List.getElem?_eq_getElem lt
      have member := seen.subset (List.getElem_mem lt)
      generalize lexer.significantTokens[blamed] = token at found member
      have placed := yields.isPlaced token (List.mem_filter.mp member).1
      rw [Failure.diagnostic, List.getElem?_toArray, found, Option.getD_some, source_eq]
      exact Diagnostic.pinpoints (fault.source_diagnostic ..)
        (fault.offsets_diagnostic ..) placed.isBoundary

section

variable {Tree : Type → Type} {rule : Rule (Tree Extent)}
variable {map : (Extent → Note) → Tree Extent → Tree Note}
variable {options : ParseOptions} {diagnostic : Diagnostic}

theorem readBy_pinpoints
    (ends : Ends source tokens ending
      (Parser.ofRule rule options.maxNestingDepth (.start source)))
    (yields : source.Yields tokens ending)
    (failed : (readBy rule map options (.start source)).1 = .error diagnostic) :
    diagnostic.Pinpoints source := by
  unfold readBy at failed
  generalize Parser.ofRule rule _ _ = result at ends failed
  obtain ⟨failure | tree, lexer⟩ := result
  · cases failed
    exact ends.pinpoints yields options
  · cases failed

end

theorem tokensOf_eq_ok (yields : source.Yields tokens none) :
    tokensOf source = .ok tokens := by
  rw [tokensOf, yields.tokenize_eq]
  rfl

theorem tokensOf_eq_error (yields : source.Yields tokens (some error)) :
    tokensOf source = .error (.ofLexicalError source error) := by
  rw [tokensOf, yields.tokenize_eq]
  rfl

/-- Whatever is wrong with a source, it is reported in one place. -/
theorem pinpoints_of_error {options : ParseOptions} {diagnostic : Diagnostic}
    (failed : tokensOf source = .error diagnostic ∨
      parse source options = .error diagnostic ∨
      parseValue source options = .error diagnostic ∨
      parseType source options = .error diagnostic) :
    diagnostic.Pinpoints source := by
  obtain ⟨tokens, ending, yields⟩ := source.exists_yields
  have parts := Reads.nestedParts extentBetween options.maxNestingDepth
  rcases failed with failed | failed | failed | failed
  · cases ending with
    | none =>
        rw [tokensOf_eq_ok yields] at failed
        cases failed
    | some error =>
        rw [tokensOf_eq_error yields] at failed
        cases failed
        exact Diagnostic.ofLexicalError_pinpoints yields
  · exact readBy_pinpoints (ends_document yields _) yields failed
  · exact readBy_pinpoints ((Reads.value parts .variable).ends yields) yields failed
  · exact readBy_pinpoints (Reads.ends (.typeReference parts) yields) yields failed

/-! ## What a report on nodes shows -/

namespace Diagnostic

variable {message : String} {spans : List (Option Span)}

theorem source_ofNodes : (ofNodes message source spans).source =
    if (spans.filterMap id).isEmpty then none else some source := rfl

theorem locations_ofNodes : (ofNodes message source spans).locations =
    (spans.filterMap id).map fun span => source.locationAt span.start := by
  have offsets :
      (ofNodes message source spans).offsets = (spans.filterMap id).map Span.start := rfl
  rw [locations, offsets, source_ofNodes]
  cases spans.filterMap id with
  | nil => rfl
  | cons span others => exact List.map_map

theorem exists_excerpts_ofNodes (message : String) (source : Source)
    (spans : List (Option Span)) :
    ∃ excerpts, List.Forall₂ (fun span excerpt =>
      source.excerpt (source.locationAt span.start) = .ok excerpt)
        (spans.filterMap id) excerpts ∧
      (ofNodes message source spans).detailed =
        "\n\n".intercalate (message :: excerpts) := by
  obtain ⟨excerpts, shown, report⟩ := (ofNodes message source spans).exists_excerpts
  rw [Excerpts, locations_ofNodes, List.forall₂_map_left_iff] at shown
  refine ⟨excerpts, shown.imp ?_, report⟩
  rintro span excerpt ⟨other, named, shown⟩
  rw [source_ofNodes] at named
  split at named <;> cases named
  exact shown

end Diagnostic

/-- There is an excerpt for every offset in a source. Whatever is wrong with a source is
reported in one place, and a report on nodes is about the beginning of each that has a
location; both show what they are about. -/
theorem excerpts_shown (source : Source) :
    (∀ offset, ∃ excerpt, source.excerpt (source.locationAt offset) = .ok excerpt) ∧
      (∀ options diagnostic,
        tokensOf source = .error diagnostic ∨ parse source options = .error diagnostic ∨
            parseValue source options = .error diagnostic ∨
            parseType source options = .error diagnostic →
          diagnostic.Pinpoints source) ∧
      ∀ message (nodes : List (Node Note)), ∃ excerpts,
        (Diagnostic.ofNodes message source (nodes.map Node.location)).locations =
            (nodes.filterMap Node.location).map
              (fun span => source.locationAt span.start) ∧
          List.Forall₂ (fun span excerpt =>
            source.excerpt (source.locationAt span.start) = .ok excerpt)
            (nodes.filterMap Node.location) excerpts ∧
          (Diagnostic.ofNodes message source (nodes.map Node.location)).detailed =
            "\n\n".intercalate (message :: excerpts) := by
  refine ⟨source.exists_excerpt_locationAt, fun _ _ => pinpoints_of_error,
    fun message nodes => ?_⟩
  have located : (nodes.map Node.location).filterMap id = nodes.filterMap Node.location :=
    List.filterMap_map ..
  obtain ⟨excerpts, shown, report⟩ :=
    Diagnostic.exists_excerpts_ofNodes message source (nodes.map Node.location)
  rw [located] at shown
  exact ⟨excerpts, located ▸ Diagnostic.locations_ofNodes, shown, report⟩

theorem brace_shown :
    (∃ diagnostic, parse { body := "\x7b\r\n é" } ⟨false, 9⟩ = .error diagnostic ∧
      diagnostic.Pinpoints { body := "\x7b\r\n é" } ∧ diagnostic.locations = [⟨2, 2⟩]) ∧
    ∃ diagnostic, parseValue { body := "[\"é\"," } ⟨false, 9⟩ = .error diagnostic ∧
      diagnostic.Pinpoints { body := "[\"é\"," } ∧ diagnostic.locations = [⟨1, 6⟩] := by
  have failed : parse { body := "\x7b\r\n é" } ⟨false, 9⟩ = .error _ := rfl
  have failed' : parseValue { body := "[\"é\"," } ⟨false, 9⟩ = .error _ := rfl
  refine ⟨⟨_, failed, (excerpts_shown _).2.1 _ _ (.inr (.inl failed)), rfl⟩, ?_⟩
  exact ⟨_, failed', (excerpts_shown _).2.1 _ _ (.inr (.inr (.inl failed'))), rfl⟩

end GraphQL

import GraphQL.Parse
import GraphQL.Proofs.Derivation.Notes
import GraphQL.Proofs.Syntax.Maps

/-! Leaving the spans out of a tree changes nothing but the spans.

Whether nodes have locations is asked when a tree is built and when a fault is reported,
but never to decide what is read. So both ways of parsing read alike: their trees are the
same but for the locations, and their reports, though made differently, read the same. -/

namespace GraphQL

open ParseOptions (Note)

/-! ## Reports -/

/-- Reports from which people and programs learn the same. They need not say in the same
way where the places are that they are about. -/
structure Diagnostic.ReadsAs (first second : Diagnostic) : Prop where
  message : first.message = second.message
  kind : first.kind = second.kind
  cause : first.cause = second.cause
  source : first.source = second.source
  extensions : first.extensions = second.extensions
  locations : first.locations = second.locations
  oneLine : first.oneLine = second.oneLine
  detailed : first.detailed = second.detailed
  toJson : first.toJson = second.toJson

theorem Diagnostic.readsAs {first second : Diagnostic}
    (message : first.message = second.message)
    (kind : first.kind = second.kind) (cause : first.cause = second.cause)
    (source : first.source = second.source)
    (extensions : first.extensions = second.extensions)
    (offsets : first.offsets = second.offsets) : first.ReadsAs second := by
  have locations : first.locations = second.locations := by
    rw [Diagnostic.locations, Diagnostic.locations, source, offsets]
  have fullMessage : first.fullMessage = second.fullMessage := by
    rw [Diagnostic.fullMessage, Diagnostic.fullMessage, kind, message]
  refine ⟨message, kind, cause, source, extensions, locations, ?_, ?_, ?_⟩
  · rw [Diagnostic.oneLine, Diagnostic.oneLine, source, locations, fullMessage]
  · rw [Diagnostic.detailed, Diagnostic.detailed, source, locations, fullMessage]
  · rw [Diagnostic.toJson, Diagnostic.toJson, locations, fullMessage, extensions]

theorem GrammarFault.readsAs_diagnostic (fault : GrammarFault)
    (source : Source) (limit : Nat)
    (token : Token) : (fault.diagnostic source ⟨true, limit⟩ token).ReadsAs
      (fault.diagnostic source ⟨false, limit⟩ token) := by
  cases fault with
  -- Of the one fault that lies with a node, the place is the node's or the token's.
  | unknownDirectiveLocation name => exact Diagnostic.readsAs rfl rfl rfl rfl rfl rfl
  | _ => exact Diagnostic.readsAs rfl rfl rfl rfl rfl rfl

theorem Failure.readsAs_diagnostic (failure : Failure) (source : Source) (limit : Nat)
    (tokens : Array Token) : (failure.diagnostic source ⟨true, limit⟩ tokens).ReadsAs
      (failure.diagnostic source ⟨false, limit⟩ tokens) := by
  cases failure with
  | lexical error => exact Diagnostic.readsAs rfl rfl rfl rfl rfl rfl
  | grammatical fault ordinal => exact fault.readsAs_diagnostic source limit _

/-! ## Trees -/

def Node.withoutLocations (node : Node Note) : Node Note := node.map fun _ => none

theorem Node.location_of_within_map {L : Type} {node : Node L} {role : Role}
    {outline : Outline Note}
    (within : outline.Within ((node.map fun _ => none).outline role)) :
    outline.node.location = none := by
  obtain ⟨role', inner, rfl, _⟩ := within.of_map
  rw [Outline.node_outline, Node.location_map]

/-- What comes of parsing without locations, given what comes of parsing with them -/
inductive ErasesTo : Except Diagnostic (Node Note) → Except Diagnostic (Node Note) → Prop
  | tree {node} :
      (∀ role (outline : Outline Note),
        outline.Within (node.withoutLocations.outline role) →
        outline.node.location = none) →
      ErasesTo (.ok node) (.ok node.withoutLocations)
  | report {located unlocated : Diagnostic} : unlocated.ReadsAs located →
      ErasesTo (.error located) (.error unlocated)

/-- What is read by a rule with and without locations -/
theorem readBy_erasesTo {Tree : Type → Type} (rule : Rule (Tree Extent))
    {map : (Extent → Note) → Tree Extent → Tree Note}
    {node : ∀ {L : Type}, Tree L → Node L}
    (node_map : ∀ note tree, node (map note tree) = (node tree).map note) (limit : Nat)
    (lexer : Lexer) :
    ErasesTo ((readBy rule map ⟨false, limit⟩ lexer).1.map node)
      ((readBy rule map ⟨true, limit⟩ lexer).1.map node) := by
  unfold readBy
  generalize Parser.ofRule rule limit lexer = result
  obtain ⟨outcome, lexer'⟩ := result
  cases outcome with
  | error failure => exact .report (failure.readsAs_diagnostic _ limit _)
  | ok tree =>
      have erased : ∀ tokens, node (map (ParseOptions.note ⟨true, limit⟩ tokens) tree) =
          (node (map (ParseOptions.note ⟨false, limit⟩ tokens)
            tree)).withoutLocations := by
        intro tokens
        rw [node_map, node_map, Node.withoutLocations, Node.map_map]
        rfl
      change ErasesTo (.ok _) (.ok _)
      rw [erased]
      exact .tree fun role outline => Node.location_of_within_map

/-- To parse without locations is to parse with them and to leave them out. -/
theorem parse_erasesTo (source : Source) (limit : Nat) :
    ErasesTo ((parse source ⟨false, limit⟩).map .document)
        ((parse source ⟨true, limit⟩).map .document) ∧
      ErasesTo ((parseValue source ⟨false, limit⟩).map .value)
        ((parseValue source ⟨true, limit⟩).map .value) ∧
      ErasesTo ((parseType source ⟨false, limit⟩).map .type)
        ((parseType source ⟨true, limit⟩).map .type) :=
  ⟨readBy_erasesTo _ (fun _ _ => rfl) _ _, readBy_erasesTo _ (fun _ _ => rfl) _ _,
    readBy_erasesTo _ (fun _ _ => rfl) _ _⟩

end GraphQL

import GraphQL.Main
import GraphQL.Syntax.Equality
import GraphQL.Syntax.Outline
import GraphQL.Proofs.Derivation.Basic
import GraphQL.Proofs.Derivation.Node
import GraphQL.Proofs.Derivation.Outline
import GraphQL.Proofs.Derivation.Written
import GraphQL.Proofs.Lexing.Lexer
import GraphQL.Proofs.Parsing.Acceptance
import GraphQL.Proofs.Derivation.Nesting
import GraphQL.Proofs.Lexing.Calls
import GraphQL.Proofs.Lexing.Spelling
import GraphQL.Proofs.Lexing.Tiling
import GraphQL.Proofs.Parsing.Layout
import GraphQL.Proofs.Parsing.Nesting
import GraphQL.Proofs.Parsing.Spans
import GraphQL.Proofs.Derivation.Notes
import GraphQL.Proofs.Lexing.Cutting
import GraphQL.Proofs.Lexing.Writing
import GraphQL.Proofs.Parsing.Alone
import GraphQL.Proofs.Parsing.Blame
import GraphQL.Proofs.Lexing.Places
import GraphQL.Proofs.Parsing.Erasure
import GraphQL.Proofs.Parsing.Asking
import GraphQL.Proofs.Parsing.Faults
import GraphQL.Proofs.Parsing.Joined
import GraphQL.Proofs.Locating.Words
import GraphQL.Proofs.Lexing.Misread
import GraphQL.Proofs.Locating.Diagnostic
import GraphQL.Proofs.Lexing.LineFeeds
import GraphQL.Proofs.Lexing.LineEnds
import GraphQL.Proofs.Parsing.LineEnds
import GraphQL.Proofs.Strings.Quoted
import GraphQL.Proofs.Strings.Dedent
import GraphQL.Proofs.Strings.Block
import GraphQL.Proofs.Numbers.Recognition
import GraphQL.Proofs.Numbers.Rounding
import GraphQL.Proofs.Numbers.Integer
import GraphQL.Proofs.Parsing.Constants
import GraphQL.Proofs.Lexing.Names
import GraphQL.Proofs.Lexing.Laying
import GraphQL.Proofs.Parsing.Soundness
import GraphQL.Proofs.Parsing.Types
import GraphQL.Proofs.Parsing.Counting
import GraphQL.Proofs.Parsing.Session
import GraphQL.Proofs.Parsing.EnumValues
import GraphQL.Proofs.Parsing.TooDeep
import GraphQL.Proofs.CommandLine.Report
import GraphQL.Proofs.CommandLine.Collection
import GraphQL.Proofs.CommandLine.Listing
import GraphQL.Proofs.Parsing.Progress
import GraphQL.Proofs.Scanning.Scanner

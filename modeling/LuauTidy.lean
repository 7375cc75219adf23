import LuauTidy.Kind
import LuauTidy.Fault
import LuauTidy.StringLiteral
import LuauTidy.Text.Basic
import LuauTidy.Text.Invisible
import LuauTidy.Text.Quoted
import LuauTidy.Text.JsonValue
import LuauTidy.Text.Terminal
import LuauTidy.Token.Basic
import LuauTidy.Token.Nesting
import LuauTidy.Token.Lexeme
import LuauTidy.Token.Scan
import LuauTidy.Tree.Basic
import LuauTidy.Tree.Outline
import LuauTidy.Tree.Dump
import LuauTidy.Tree.Builder
import LuauTidy.Grammar.Complaint
import LuauTidy.Grammar.Cursor
import LuauTidy.Grammar.Expr
import LuauTidy.Grammar.Stmt
import LuauTidy.Grammar.Parse
import LuauTidy.Grammar.Assembly
import LuauTidy.Layout.Page
import LuauTidy.Outcome
import LuauTidy.Layout.Rules
import LuauTidy.Layout.Render
import LuauTidy.Lowering.Construct
import LuauTidy.Lowering.Draft
import LuauTidy.Lowering.Pass
import LuauTidy.Lowering.Filler
import LuauTidy.Lowering.Fixpoint
import LuauTidy.Settings.Toml.Value
import LuauTidy.Settings.Toml.Decimal
import LuauTidy.Settings.Toml.Moment
import LuauTidy.Settings.Toml.Scalar
import LuauTidy.Settings.Toml.Document
import LuauTidy.Settings.Config
import LuauTidy.Command.Arguments
import LuauTidy.Command.Help
import LuauTidy.Command.Files
import LuauTidy.Command.Run
import LuauTidy.Main
import LuauTidy.Proofs.Cutting
import LuauTidy.Proofs.Lexemes
import LuauTidy.Proofs.Spelling
import LuauTidy.Proofs.Forest
import LuauTidy.Proofs.Syntax
import LuauTidy.Proofs.Reading
import LuauTidy.Proofs.ExprReading
import LuauTidy.Proofs.StmtReading
import LuauTidy.Proofs.Extents
import LuauTidy.Proofs.Tiling
import LuauTidy.Proofs.Tokens
import LuauTidy.Proofs.Phrases
import LuauTidy.Proofs.Sealing
import LuauTidy.Proofs.Contexts
import LuauTidy.Proofs.Fillers
import LuauTidy.Proofs.Lowered
import LuauTidy.Proofs.Splicing
import LuauTidy.Proofs.Passes
import LuauTidy.Proofs.Fixpoints
import LuauTidy.Proofs.Shapes
import LuauTidy.Proofs.Fates
import LuauTidy.Proofs.Frames
import LuauTidy.Proofs.Accounts
import LuauTidy.Proofs.Forms
import LuauTidy.Proofs.Cuts
import LuauTidy.Proofs.Layouts
import LuauTidy.Proofs.Locality
import LuauTidy.Proofs.Accepting
import LuauTidy.Proofs.ExprAccepting
import LuauTidy.Proofs.StmtAccepting
import LuauTidy.Proofs.Values
import LuauTidy.Proofs.Precedence
import LuauTidy.Proofs.LooseGrammar
import LuauTidy.Proofs.Lockstep
import LuauTidy.Proofs.Assembling
import LuauTidy.Proofs.ExprAssembling
import LuauTidy.Proofs.StmtAssembling
import LuauTidy.Proofs.Scanning
import LuauTidy.Proofs.Assembled
import LuauTidy.Proofs.Stability
import LuauTidy.Proofs.Sketches
import LuauTidy.Proofs.ExprSketches
import LuauTidy.Proofs.StmtSketches
import LuauTidy.Proofs.Spacings
import LuauTidy.Proofs.Respacing
import LuauTidy.Proofs.Refusals
import LuauTidy.Proofs.Convergence
import LuauTidy.Proofs.Links
import LuauTidy.Proofs.Sessions
import LuauTidy.Proofs.Placement
import LuauTidy.Proofs.Interpolation
import LuauTidy.Proofs.Lookahead
import LuauTidy.Proofs.Neighbours
import LuauTidy.Proofs.Rejoining
import LuauTidy.Proofs.Relocation
import LuauTidy.Proofs.Contents
import LuauTidy.Proofs.Surroundings
import LuauTidy.Proofs.Excerpts
import LuauTidy.Proofs.Renditions
import LuauTidy.Proofs.Quotients
import LuauTidy.Proofs.Branches
import LuauTidy.Proofs.Choices
import LuauTidy.Proofs.Grouping
import LuauTidy.Proofs.Quotes
import LuauTidy.Proofs.Wariness
import LuauTidy.Proofs.Diagnoses
import LuauTidy.Proofs.Journals
import LuauTidy.Proofs.Records
import LuauTidy.Proofs.Turns
import LuauTidy.Proofs.Lines
import LuauTidy.Proofs.Indentation
import LuauTidy.Proofs.Typesetting
import LuauTidy.Proofs.Endings
import LuauTidy.Proofs.Composition
import LuauTidy.Proofs.Places
import LuauTidy.Proofs.Attachment
import LuauTidy.Proofs.Effects
import LuauTidy.Proofs.Modes
import LuauTidy.Proofs.Counterparts
import LuauTidy.Proofs.Levels
import LuauTidy.Proofs.Scopes
import LuauTidy.Proofs.LastValues
import LuauTidy.Proofs.Touching
import LuauTidy.Proofs.Grafting
import LuauTidy.Proofs.Detaching
import LuauTidy.Proofs.Mirrors
import LuauTidy.Proofs.Transplants
import LuauTidy.Proofs.Separation

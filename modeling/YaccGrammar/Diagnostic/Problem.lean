import YaccGrammar.Keyword
import YaccGrammar.Reading.Phase
import YaccGrammar.Text.Lexeme

/-!
# Problems

Everything that can be wrong with a grammar file, by cause, and the sentence that tells a user. A
problem is fatal when nothing can be read beyond it: a construct that the file does not close, a
file that ends too early, and a file that cannot be read.
-/

namespace YaccGrammar

/-- Why a file could not be read. -/
structure IoFailure where
  /-- The kind of failure, by which failures are compared. -/
  kind : String
  /-- What the system says about it. -/
  message : String
  deriving DecidableEq

/-- What can be wrong with a grammar file. A text that comes with a problem is the token that was
found, or the name that the problem is about. -/
inductive Problem where
  /-- The file does not begin with a block of imported code. -/
  | missingImportBlock (found : String)
  /-- A declaration does not begin with `%`. -/
  | missingDeclaration (found : String)
  /-- A `%` is followed by a word that is no keyword. -/
  | unknownKeyword (word : String)
  /-- `%union` is not followed by a code block. -/
  | missingUnionBlock (found : String)
  /-- A second `%union`; the first one is on the given line. -/
  | repeatedUnion (line : Nat)
  /-- A type tag among the names of a declaration. -/
  | misplacedTag (tag : String)
  /-- A name that is no nonterminal in a declaration of nonterminals. -/
  | nonterminalExpected (keyword : Keyword) (name : String)
  /-- A name that is no terminal in a declaration of terminals. -/
  | terminalExpected (keyword : Keyword) (name : String)
  /-- A second start symbol. -/
  | repeatedStart (name : String)
  /-- `%prec` among the declarations. -/
  | precOutsideRule
  /-- The rules end before the first one. -/
  | noRules
  /-- A left-hand side that is no nonterminal. -/
  | invalidLhs (found : String)
  /-- A left-hand side without a colon behind it. -/
  | missingColon (found : String)
  /-- Something that does not belong into a right-hand side. -/
  | unexpectedToken (found : String)
  /-- A second empty alternative of a nonterminal. -/
  | repeatedEmptyAlternative (lhs : String)
  /-- A second code block in one alternative. -/
  | repeatedCode (lhs : String)
  /-- A `%` in a rule without `prec` behind it. -/
  | missingPrecKeyword (found : String)
  /-- `%prec` names a symbol that is not known yet. -/
  | undeclaredPrecSymbol (name : String)
  /-- Something that cannot follow the symbol of `%prec`. -/
  | unexpectedAfterPrec (found : String)
  /-- Only one `%` behind the rules. -/
  | missingTrailerMark (found : String)
  /-- A nonterminal that is used but has no rule. -/
  | undefinedNonterminal (name : String)
  /-- A start symbol without a rule. -/
  | undefinedStart (name : String)
  /-- A construct that the file does not close. -/
  | unterminated (what : Text.Unterminated)
  /-- The file ends while something is still expected. -/
  | unexpectedEnd (phase : Phase)
  /-- The file cannot be read. -/
  | unreadable (failure : IoFailure)
  deriving DecidableEq

namespace Problem

/-- Problems that stop the reading. -/
def isFatal : Problem → Bool
  | unterminated _ | unexpectedEnd _ | unreadable _ => true
  | _ => false

/-- Quotes a text in a sentence. -/
def cite (text : String) : String := "`" ++ text ++ "`"

/-- What is said about a construct that the file does not close. -/
def unterminatedMessage : Text.Unterminated → String
  | .comment => "EOF inside comment"
  | .literal => "String starting on this line is not terminated before the end of the file"
  | .tag => "Type tag `<type>` starting on this line is not terminated before the end of the file"
  | .code => "Code starting on this line is not terminated before the end of the file"

/-- The problem in a sentence. -/
def message : Problem → String
  | missingImportBlock found =>
    "Declaration must start with `%\x7b` and end with `%\x7d`. Found: " ++ cite found
  | missingDeclaration found =>
    "Expected `%keyword` to declare a keyword or `%%` to start the rules. Found: " ++ cite found
  | unknownKeyword word => "Unknown declaration keyword " ++ cite ("%" ++ word)
  | missingUnionBlock found => "Expected `\x7b ... \x7d` after `%union`. Found: " ++ cite found
  | repeatedUnion line =>
    "Multiple `%union` definitions. Previous definition is on line " ++ toString line
  | misplacedTag tag => "Type tag " ++ cite tag ++ " must directly follow the keyword"
  | nonterminalExpected keyword name =>
    cite keyword.render ++ " must be followed by a nonterminal (lowercase name): " ++ cite name
  | terminalExpected keyword name =>
    cite keyword.render ++ " must be followed by a terminal (uppercase name or literal): " ++
      cite name
  | repeatedStart name => "Start symbol already declared, ignoring " ++ cite name
  | precOutsideRule => "`%prec` is only allowed inside a rule"
  | noRules => "Unexpected `%%`, at least 1 rule must be defined"
  | invalidLhs found => "Left hand side of a rule must be a nonterminal: " ++ cite found
  | missingColon found => "Expected `:` after the left hand side. Found: " ++ cite found
  | unexpectedToken found =>
    "Expected a symbol, `|`, `\x7b`, `%prec` or `;`. Found: " ++ cite found
  | repeatedEmptyAlternative lhs => "Multiple empty alternatives for " ++ cite lhs
  | repeatedCode lhs => "Alternative of " ++ cite lhs ++ " already has a code block"
  | missingPrecKeyword found => "Expected `%prec`. Found: " ++ cite ("%" ++ found)
  | undeclaredPrecSymbol name => "Symbol after `%prec` must be declared: " ++ cite name
  | unexpectedAfterPrec found =>
    "Expected `|`, `\x7b` or `;` after `%prec` symbol. Found: " ++ cite found
  | missingTrailerMark found => "Expected `%%` before the trailing code. Found: " ++ cite found
  | undefinedNonterminal name => "Could not find definition for " ++ cite name
  | undefinedStart name => "Start symbol " ++ cite name ++ " has no rules"
  | unterminated what => unterminatedMessage what
  | unexpectedEnd phase => "Unexpected end of file while " ++ phase.description
  | unreadable failure => "File error: " ++ failure.message

/-- Equality, except that failures to read a file are compared by kind only. -/
def same : Problem → Problem → Bool
  | unreadable a, unreadable b => a.kind = b.kind
  | a, b => a = b

end Problem

end YaccGrammar

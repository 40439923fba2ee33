/-!
# Phases of reading

What is expected next in a grammar file. The file consists of a block of imported code,
declarations, rules, and trailing code; `%` and `%%` stand between the parts.
-/

namespace YaccGrammar

/-- What a reader of a grammar file waits for. -/
inductive Phase where
  /-- The `%` in front of the imported code. -/
  | preamble
  /-- The imported code. -/
  | importBlock
  /-- The `%` of a declaration or of the line between declarations and rules. -/
  | declaration
  /-- The keyword of a declaration, or the second `%` of `%%`. -/
  | keyword
  /-- What follows a keyword: a type tag, a code block, or the first name. -/
  | tagOrBlock
  /-- The names of a declaration. -/
  | declaredNames
  /-- The left-hand side of a rule, or the `%%` behind the rules. -/
  | ruleHead
  /-- The colon behind a left-hand side. -/
  | colon
  /-- The right-hand side of a rule. -/
  | ruleBody
  /-- The keyword `prec` behind the `%` in a rule. -/
  | precKeyword
  /-- The symbol that lends its precedence. -/
  | precSymbol
  /-- The end of an alternative whose precedence was given. -/
  | afterPrec
  /-- The second `%` behind the rules. -/
  | trailerMark
  /-- The trailing code. -/
  | trailer
  deriving DecidableEq

namespace Phase

/-- The phase in words, as diagnostics put it behind "while". -/
def description : Phase → String
  | preamble => "waiting for `%\x7b`"
  | importBlock => "waiting for the `%\x7b ... %\x7d` block"
  | declaration | keyword => "waiting for a declaration or `%%`"
  | tagOrBlock => "waiting for a tag or symbol after a keyword"
  | declaredNames => "waiting for a symbol after a keyword"
  | ruleHead => "waiting for a rule"
  | colon => "waiting for `:`"
  | ruleBody => "inside a rule"
  | precKeyword => "waiting for `prec`"
  | precSymbol => "waiting for the `%prec` symbol"
  | afterPrec => "waiting for `|`, `\x7b` or `;` after `%prec`"
  | trailerMark => "waiting for the second `%` of `%%`"
  | trailer => "inside the trailing code"

/-- The short name of the phase that the most detailed log shows. -/
def label : Phase → String
  | preamble => "WaitPercentSign"
  | importBlock => "WaitOpenBrace"
  | declaration => "WaitKwDefOrRule1"
  | keyword => "WaitKwDefOrRule2"
  | tagOrBlock => "WaitOptTagOrOpenBrace"
  | declaredNames => "WaitSymbolAfterKeyword"
  | ruleHead => "WaitRuleLhsSymbol"
  | colon => "WaitColon"
  | ruleBody => "WaitRuleRhsSymbol"
  | precKeyword => "WaitPrecedence"
  | precSymbol => "WaitPrecedenceTerm"
  | afterPrec => "WaitSymbolAfterPrec"
  | trailerMark => "WaitSubRoutine1"
  | trailer => "WaitSubRoutine2"

end Phase

end YaccGrammar

/-!
Why a text is not a pattern. Each cause has a message of its own.
-/

namespace JsonFilter.Pattern

/-- What is wrong with a pattern. -/
inductive Error where
  | tooDeep
  | duplicateName
  | groupUnclosed
  | groupQuestionUnclosed
  | groupUnopened
  | lookAround
  | flagsEmpty
  | nameMissing
  | nameInvalid
  | nameUnclosed
  | nameEmpty
  | flagUnrecognized
  | flagNegationRepeated
  | flagDuplicate
  | flagsUnclosed
  | flagNegationDangling
  | decimalMissing
  | decimalInvalid
  | hexBraceDigit
  | hexBraceUnclosed
  | hexBraceEmpty
  | hexBraceInvalid
  | hexFixedEnd
  | hexFixedDigit
  | hexFixedInvalid
  | hexEnd
  | escapeEnd
  | backreference
  | unicodeClass
  | escapeUnrecognized
  | repetitionOfNothing
  | countOfNothing
  | countUnclosed
  | countMinUnclosed
  | countCommaUnclosed
  | countMaxUnclosed
  | countInvalid
  | countRange
  | classUnclosedAfterItem
  | classRangeItem
  | classItem
  | classUnclosedAfterDash
  | classUnclosedAfterNegation
  | classUnclosedAfterBracket
  | classRange
  | classUnclosed
  | classNested
  | classIntersection
  | classDifference
  | classSymmetricDifference
  | boundaryUnclosed
  | boundaryUnrecognized
  | boundaryEnd
  | tooBig
  deriving DecidableEq

/-- The cause in words. -/
def Error.message : Error → String
  | .tooDeep => "pattern has too much nesting"
  | .duplicateName => "duplicate capture group name"
  | .groupUnclosed => "found open group without closing ')'"
  | .groupQuestionUnclosed => "expected closing ')', but got end of pattern"
  | .groupUnopened => "found closing ')' without matching '('"
  | .lookAround => "look-around is not supported"
  | .flagsEmpty => "empty flag directive '(?)' is not allowed"
  | .nameMissing => "expected capture group name, but got end of pattern"
  | .nameInvalid => "invalid group name"
  | .nameUnclosed => "expected end of capture group name, but got end of pattern"
  | .nameEmpty => "empty capture group names are not allowed"
  | .flagUnrecognized => "unrecognized inline flag"
  | .flagNegationRepeated => "inline flag negation cannot be repeated"
  | .flagDuplicate => "duplicate inline flag is not allowed"
  | .flagsUnclosed => "expected ':' or ')' to end inline flags, but got end of pattern"
  | .flagNegationDangling => "inline flags cannot end with negation directive"
  | .decimalMissing => "expected decimal number, but found no digits"
  | .decimalInvalid => "got invalid decimal number"
  | .hexBraceDigit => "expected hexadecimal number in braces, but got non-hex digit"
  | .hexBraceUnclosed => "expected hexadecimal number, but saw end of pattern before closing brace"
  | .hexBraceEmpty => "expected hexadecimal number in braces, but got no digits"
  | .hexBraceInvalid => "got invalid hexadecimal number in braces"
  | .hexFixedEnd => "expected fixed length hexadecimal number, but saw end of pattern first"
  | .hexFixedDigit => "expected fixed length hexadecimal number, but got non-hex digit"
  | .hexFixedInvalid => "got invalid fixed length hexadecimal number"
  | .hexEnd => "expected hexadecimal number, but saw end of pattern first"
  | .escapeEnd => "saw start of escape sequence, but saw end of pattern before it finished"
  | .backreference => "backreferences are not supported"
  | .unicodeClass => "Unicode character classes are not supported"
  | .escapeUnrecognized => "unrecognized escape sequence"
  | .repetitionOfNothing => "uncounted repetition operator must be applied to a sub-expression"
  | .countOfNothing => "counted repetition operator must be applied to a sub-expression"
  | .countUnclosed => "found unclosed counted repetition operator"
  | .countMinUnclosed => "found incomplete and unclosed counted repetition operator"
  | .countCommaUnclosed => "found counted repetition operator with a comma that is unclosed"
  | .countMaxUnclosed => "found counted repetition with min and max that is unclosed"
  | .countInvalid => "expected closing brace for counted repetition, but got something else"
  | .countRange => "found counted repetition with a min bigger than its max"
  | .classUnclosedAfterItem => "non-empty character class has no closing bracket"
  | .classRangeItem => "character class ranges must start and end with a single character"
  | .classItem => "invalid escape sequence in character class"
  | .classUnclosedAfterDash => "non-empty character class has no closing bracket after dash"
  | .classUnclosedAfterNegation => "negated character class has no closing bracket"
  | .classUnclosedAfterBracket => "character class begins with literal ']' but has no closing bracket"
  | .classRange => "invalid range in character class"
  | .classUnclosed => "found unclosed character class"
  | .classNested => "nested character classes are not supported"
  | .classIntersection => "character class intersection is not supported"
  | .classDifference => "character class difference is not supported"
  | .classSymmetricDifference => "character class symmetric difference is not supported"
  | .boundaryUnclosed => "special word boundary assertion is unclosed or has an invalid character"
  | .boundaryUnrecognized => "special word boundary assertion is unrecognized"
  | .boundaryEnd => "found start of special word boundary or repetition without an end"
  | .tooBig => "compiled regex exceeded size limit"

end JsonFilter.Pattern

/-! Tokens of markup: runs of text, opening tags and closing tags, and what can be
wrong with a source text that is to be cut into them. -/
namespace Stencil.Markup

structure Attribute where
  name : String
  value : String
  deriving DecidableEq, Repr

inductive Token where
  | text (content : String)
  | opening (tag : String) (attributes : List Attribute) (selfClosing : Bool)
  | closing (tag : String)
  deriving DecidableEq, Repr

inductive TokenCause where
  | unterminatedTag
  | unterminatedComment
  | missingTagName
  | unterminatedValue
  deriving DecidableEq, Repr

/-- What is wrong, and the byte offset of the construct that is wrong. -/
structure TokenError where
  cause : TokenCause
  offset : Nat
  deriving DecidableEq, Repr

def TokenCause.label : TokenCause → String
  | .unterminatedTag => "Unterminated tag"
  | .unterminatedComment => "Unterminated comment"
  | .missingTagName => "Missing tag name"
  | .unterminatedValue => "Unterminated attribute value"

def TokenError.message (e : TokenError) : String :=
  e.cause.label ++ " at position " ++ toString e.offset

end Stencil.Markup

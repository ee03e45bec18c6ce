namespace Consultation

/-- What is said about a refused operation: the cause in words, a code that
    stays the same when the words change, and advice. -/
structure Diagnostic where
  message : String
  code : String
  help : String
  deriving DecidableEq, Repr

end Consultation

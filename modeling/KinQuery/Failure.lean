import KinQuery.Arity
import KinQuery.Family.Profile
import KinQuery.Kind
import KinQuery.Term.Token
import KinQuery.Text.Script

/-! Everything that can go wrong, by its cause. One function words every cause. -/
namespace KinQuery

/-- The classes of failures. -/
inductive FailureClass where
  | malformedTerm
  | arity
  | type
  | domain
  | redefinition
  | config
  | persistence
  | lock
  deriving DecidableEq

namespace FailureClass

/-- What a message of this class begins with. -/
def opening : FailureClass → String
  | .malformedTerm => "Malformed term: "
  | .arity => "Arity mismatch: "
  | .type => "Type mismatch: "
  | .domain => "Domain error: "
  | .redefinition => "Redefinition: "
  | .config => "Config error: "
  | .persistence => "Persistence error: "
  | .lock => "Lock poisoned: "

/-- Whether a bad query is to blame, and not what surrounds the evaluation of queries. -/
def isLanguage : FailureClass → Bool
  | .malformedTerm | .arity | .type | .domain | .redefinition => true
  | .config | .persistence | .lock => false

end FailureClass

/-- Why a file cannot be read or written. -/
inductive StorageFault where
  | absent
  | parentNotDirectory
  | isDirectory
  | nameTooLong
  | nullInName
  | unreadable
  deriving DecidableEq

namespace StorageFault

def message : StorageFault → String
  | .absent => "No such file or directory (os error 2)"
  | .parentNotDirectory => "Not a directory (os error 20)"
  | .isDirectory => "Is a directory (os error 21)"
  | .nameTooLong => "File name too long (os error 36)"
  | .nullInName => "file name contained an unexpected NUL byte"
  | .unreadable => "the document does not have the expected form"

end StorageFault

inductive Failure where
  | unbalancedQuery (query : String)
  | misplaced (place : Position)
  | unsplittable (fault : Text.ScriptFault)
  | defineWithoutName
  | expectedReference (found : String)
  | malformedDefine (term : String)
  | nestedDefine (term : String)
  | malformedLambda (term : String)
  | expectedParameters (found : String)
  | invalidParameter (parameter : String)
  | emptyApplication
  | unbound (name : String)
  | notLiteral (kind : Kind) (text : String)
  | wrongArgumentCount (function : String) (arity : Arity) (count : Nat)
  | wrongBranchCount (count : Nat)
  | wrongKind (operation : String) (expected actual : Kind) (term : String)
  | notFunction (term : String)
  | numeralOutOfRange (text : String) (fault : NumeralFault)
  | notDate (text : String)
  | notDateSpelling (text : String)
  | overflow (operation : String)
  | byZero (operation : String)
  | substringBounds (first last length : Int)
  | departed (operation person : String)
  | unknownPerson (id : PersonId)
  | personExists (id : PersonId)
  | quoteInProfile (field : String) (id : PersonId) (text : String)
  | marriesSelf (id : PersonId)
  | alreadyMarried (id : PersonId)
  | notMarried (first second : PersonId)
  | parentOfSelf (id : PersonId)
  | parentExists (child : PersonId) (sex : Sex)
  | notParent (parent child : PersonId)
  | invalidEntry (key name : String)
  | hostFailed (name : String)
  | redefinesKeyword (name : String)
  | redefinesFunction (name : String)
  | redefinesDefinition (name : String)
  | nameTaken (name : String)
  | badSetting (name : String)
  | storage (fault : StorageFault)
  | poisonedLock
  deriving DecidableEq

namespace Failure

def failureClass : Failure → FailureClass
  | .unbalancedQuery .. | .misplaced .. | .unsplittable .. | .defineWithoutName
  | .expectedReference .. | .malformedDefine .. | .nestedDefine .. | .malformedLambda ..
  | .expectedParameters .. | .invalidParameter .. | .emptyApplication | .unbound ..
  | .notLiteral .. => .malformedTerm
  | .wrongArgumentCount .. | .wrongBranchCount .. => .arity
  | .wrongKind .. | .notFunction .. => .type
  | .numeralOutOfRange .. | .notDate .. | .notDateSpelling .. | .overflow .. | .byZero ..
  | .substringBounds .. | .departed .. | .unknownPerson .. | .personExists ..
  | .quoteInProfile .. | .marriesSelf .. | .alreadyMarried .. | .notMarried ..
  | .parentOfSelf .. | .parentExists .. | .notParent .. | .invalidEntry ..
  | .hostFailed .. => .domain
  | .redefinesKeyword .. | .redefinesFunction .. | .redefinesDefinition ..
  | .nameTaken .. => .redefinition
  | .badSetting .. => .config
  | .storage .. => .persistence
  | .poisonedLock => .lock

/-- What happened, without the class. -/
def detail : Failure → String
  | .unbalancedQuery query => "Not well-formed term: " ++ query
  | .misplaced place => "at " ++ toString place.line ++ ":" ++ toString place.column
  | .unsplittable (.unbalanced before) => "Unbalanced parenthesis after: " ++ .ofList before
  | .unsplittable (.unterminated rest) => "Unterminated term: " ++ .ofList rest
  | .defineWithoutName => "define needs a name and a term"
  | .expectedReference found => "Expected a reference, found " ++ found
  | .malformedDefine term => "Malformed define term: " ++ term
  | .nestedDefine term => "define is only allowed at the top level: " ++ term
  | .malformedLambda term => "Malformed lambda term: " ++ term
  | .expectedParameters found => "Expected a parameter list, found " ++ found
  | .invalidParameter parameter => "Invalid lambda parameter: " ++ parameter
  | .emptyApplication => "Empty functional term: ()"
  | .unbound name => "Unbounded identifier: " ++ name
  | .notLiteral kind text => "Cannot parse " ++ text ++ " as a " ++ kind.name
  | .wrongArgumentCount function arity count =>
    function ++ " expects " ++ arity.text ++ ", but got " ++ toString count
  | .wrongBranchCount count =>
    "if expects a condition and two branches, but got " ++ toString count ++ " arguments"
  | .wrongKind operation expected actual term =>
    operation ++ " expected a " ++ expected.name ++ ", but got the " ++ actual.name ++ " " ++ term
  | .notFunction term => term ++ " is not a function"
  | .numeralOutOfRange text fault =>
    "Numeral " ++ text ++ " is out of range: " ++ fault.message
  | .notDate text => "Not a date: " ++ text
  | .notDateSpelling text => "'" ++ text ++ "' is not a day.month.year date"
  | .overflow operation => operation ++ " overflowed the numeral range"
  | .byZero operation => operation ++ " by zero"
  | .substringBounds first last length =>
    "substr bounds " ++ toString first ++ ".." ++ toString last ++
      " are out of range for a string of length " ++ toString length
  | .departed operation person => operation ++ ": " ++ person ++ " is no longer in the genealogy"
  | .unknownPerson id => "No person with id " ++ toString id
  | .personExists id => "A person with id " ++ toString id ++ " already exists"
  | .quoteInProfile field id text =>
    "The " ++ field ++ " of person " ++ toString id ++ " contains a quote: " ++ text
  | .marriesSelf id => "Person " ++ toString id ++ " cannot marry themselves"
  | .alreadyMarried id => "Person " ++ toString id ++ " is already married"
  | .notMarried first second =>
    "Persons " ++ toString first ++ " and " ++ toString second ++ " are not married"
  | .parentOfSelf id => "Person " ++ toString id ++ " cannot be their own parent"
  | .parentExists child sex => "Person " ++ toString child ++ " already has a " ++ sex.parent
  | .notParent parent child =>
    "Person " ++ toString parent ++ " is not a parent of " ++ toString child
  | .invalidEntry key name => "Invalid kinship entry: '" ++ key ++ "' -> '" ++ name ++ "'"
  | .hostFailed name => name ++ " always fails"
  | .redefinesKeyword name => "Cannot redefine a keyword: " ++ name
  | .redefinesFunction name => "Cannot redefine an atomic function: " ++ name
  | .redefinesDefinition name => "Cannot redefine previously defined reference: " ++ name
  | .nameTaken name => "Cannot register " ++ name ++ ", the name is taken"
  | .badSetting name => "invalid value for " ++ name
  | .storage fault => fault.message
  | .poisonedLock => "poisoned lock: another task failed inside"

/-- The whole text of a failure. -/
def message (failure : Failure) : String :=
  failure.failureClass.opening ++ failure.detail

end Failure
end KinQuery

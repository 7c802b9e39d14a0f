/-! # Object ids

Objects of a project refer to each other by id. The id of an object is made from its key, a text that
tells what the object is, so that making a project twice gives the same ids. -/

namespace ProjectGraph

structure ObjectId where
  text : String
  deriving DecidableEq, Repr

/-- How ids are made from keys. A colon separates the parts of a key, and ids that are parts of other
keys have none. -/
class IdScheme where
  ofKey : String → ObjectId
  colonFree : ∀ key, ':' ∉ (ofKey key).text.toList

/-- A pointer to an object. The comment is for the reader of a project and identifies nothing. -/
structure Reference where
  id : ObjectId
  comment : Option String := none
  deriving DecidableEq, Repr

end ProjectGraph

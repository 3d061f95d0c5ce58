/-!
# Records and broker errors

A topic is split into partitions, each of which numbers its records from zero. A record names its
place and carries a key and a value; a position of a group is the offset it reads next.
-/

namespace WorkQueue

/-- A record read from a partition of a topic. -/
structure Record where
  topic : String
  partition : Int
  offset : Int
  key : String
  value : ByteArray
  deriving Inhabited

/-- Why a broker operation failed. -/
inductive BrokerError where
  | unknownTopic (topic : String)
  /-- A commit for a partition that belongs to another member. -/
  | notAssigned (topic : String) (partition : Int)
  /-- The consumer has left its group. -/
  | closed
  | storage (detail : String)
  | transport (detail : String)
  deriving DecidableEq, Repr

namespace BrokerError

/-- The wording of a broker error. -/
def message : BrokerError → String
  | unknownTopic topic => "unknown topic: " ++ topic
  | notAssigned topic partition =>
    "partition " ++ toString partition ++ " of '" ++ topic ++ "' is not assigned to this consumer"
  | closed => "consumer is closed"
  | storage detail => "storage error: " ++ detail
  | transport detail => "transport error: " ++ detail

/-- The storage error for a partition that a topic does not have. -/
def noPartition (topic : String) (partition : Int) : BrokerError :=
  .storage ("partition " ++ toString partition ++ " does not exist in '" ++ topic ++ "'")

end BrokerError

/-- The name of a consumer in messages. -/
def consumerName (id : Nat) : String := "consumer-" ++ toString id

end WorkQueue

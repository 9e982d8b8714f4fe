import Cerebellum.Json
import Cerebellum.Uuid

/-! The Tephra envelope that carries every Ritual message, and its routing fields. -/
namespace Cerebellum

/- Well-known values of `TephraEnvelope::label`; the field itself is a plain string. -/
namespace Label
def offering : String := "offering"
def hohi : String := "hohi"
def tabu : String := "tabu"
def event : String := "event"
end Label

structure Routing where
  sourceNodeId : Option String := none
  targetNodeId : Option String := none
  correlationId : Option Uuid := none
  topicPath : Option String := none
  tags : Option (List String) := none
  deriving DecidableEq

inductive TephraPayload where
  | plaintext (body : Json)
  | encrypted (cipher nonce ciphertext : String) (aad : Json)
  deriving DecidableEq

structure TephraEnvelope where
  tephraId : Uuid
  ritualId : Uuid
  performanceId : Uuid
  label : String
  tsMs : Int
  ttlMs : Nat
  producerNode : String
  payload : TephraPayload
  sourceNodeId : Option String := none
  targetNodeId : Option String := none
  correlationId : Option Uuid := none
  topicPath : Option String := none
  tags : Option (List String) := none
  deriving DecidableEq

/-- What a controller keeps of the Ritual it has joined. -/
structure RitualHandle where
  ritualId : Uuid
  performanceId : Uuid
  disDomain : String

/-- Hohi and Tabu are the two replies to an Offering. -/
def TephraEnvelope.isReply (t : TephraEnvelope) : Bool :=
  t.label == Label.hohi || t.label == Label.tabu

end Cerebellum

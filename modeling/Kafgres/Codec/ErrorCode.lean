/-
The Kafka error codes (errors.rs) the transaction, offset and group APIs
answer with.
-/

namespace Kafgres.Codec

inductive ErrorCode where
  | none
  | unknownServerError
  | unknownTopicOrPartition
  | offsetMetadataTooLarge
  | illegalGeneration
  | unknownMemberId
  | invalidGroupId
  | rebalanceInProgress
  | topicAuthorizationFailed
  | groupAuthorizationFailed
  | clusterAuthorizationFailed
  | transactionalIdAuthorizationFailed
  | unsupportedVersion
  | invalidRequest
  | invalidProducerEpoch
  | invalidTxnState
  | invalidProducerIdMapping
  | nonEmptyGroup
  | groupIdNotFound
  | fencedInstanceId
  | groupSubscribedToTopic
  | unstableOffsetCommit
  | producerFenced
  | staleMemberEpoch
  | transactionAbortable
deriving DecidableEq, Repr

end Kafgres.Codec

import Arachne.Routing.Publication

/-! Latest-value publications and their authenticated metadata. -/

namespace Arachne.Delivery

open ByteCodec Fallible Routing

structure CurrentMetadata where
  selector : Block 32
  replacementKey : Block 32
  expiresAt : U64
  tombstone : Bool
deriving DecidableEq

def CurrentMetadata.authenticatedContext (metadata : CurrentMetadata)
    (context : PublicationContext) : Bytes :=
  (if metadata.tombstone then utf8 "data-fabric/live-current/v2\x00"
    else utf8 "data-fabric/live-current/v1\x00") ++ context.authenticatedBytes ++
  metadata.selector.val ++ metadata.replacementKey.val ++ beBytes 8 metadata.expiresAt.val ++
  (if metadata.tombstone then [1] else [])

theorem CurrentMetadata.length_authenticatedContext (metadata : CurrentMetadata)
    (context : PublicationContext) :
    (metadata.authenticatedContext context).length =
      100 + context.authenticatedBytes.length + metadata.tombstone.toNat := by
  have hv1 : (utf8 "data-fabric/live-current/v1\x00").length = 28 := by decide
  have hv2 : (utf8 "data-fabric/live-current/v2\x00").length = 28 := by decide
  have hselector := metadata.selector.property
  have hkey := metadata.replacementKey.property
  unfold authenticatedContext
  cases metadata.tombstone <;>
    simp only [List.length_append, hv1, hv2, hselector, hkey, beBytes_length, Bool.false_eq_true,
      if_false, if_true, List.length_nil, List.length_singleton, Bool.toNat_false,
      Bool.toNat_true] <;> omega

end Arachne.Delivery

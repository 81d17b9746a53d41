import Mathlib.Data.List.DropRight
import Arachne.Lib.ByteCodec

/-! Names that people choose, for themselves and for a workspace, and how they are stored. -/

namespace Arachne.Security

open Fallible ByteCodec

/-- `char::is_control`. -/
def isControl (c : Char) : Bool :=
  c.val < 0x20 || (0x7f ≤ c.val && c.val < 0xa0)

/-- The bidirectional formatting characters that names must not hold. -/
def isBidirectional (c : Char) : Bool :=
  c.val == 0x061c || c.val == 0x200e || c.val == 0x200f ||
    (0x202a ≤ c.val && c.val ≤ 0x202e) || (0x2066 ≤ c.val && c.val ≤ 0x2069)

/-- `char::is_whitespace`. -/
def isWhiteSpace (c : Char) : Bool :=
  (0x09 ≤ c.val && c.val ≤ 0x0d) || c.val == 0x20 || c.val == 0x85 || c.val == 0xa0 ||
    c.val == 0x1680 || (0x2000 ≤ c.val && c.val ≤ 0x200a) || c.val == 0x2028 ||
    c.val == 0x2029 || c.val == 0x202f || c.val == 0x205f || c.val == 0x3000

/-- `str::trim`. -/
def trim (text : String) : String :=
  String.ofList ((text.toList.dropWhile isWhiteSpace).rdropWhile isWhiteSpace)

theorem dropWhile_rdropWhile_dropWhile {α : Type} (p : α → Bool) (l : List α) :
    ((l.dropWhile p).rdropWhile p).dropWhile p = (l.dropWhile p).rdropWhile p := by
  obtain ⟨rest, hrest⟩ := List.rdropWhile_prefix p (l.dropWhile p)
  cases hkept : (l.dropWhile p).rdropWhile p with
  | nil => rfl
  | cons a kept =>
    rw [hkept] at hrest
    have hhead := List.head?_dropWhile_not p l
    rw [← hrest] at hhead
    exact List.dropWhile_cons_of_neg (by simpa using hhead)

theorem trim_trim (text : String) : trim (trim text) = trim text := by
  simp only [trim, String.toList_ofList, dropWhile_rdropWhile_dropWhile,
    List.rdropWhile_idempotent]

/-- The bounds on a trimmed member name. -/
def isMemberName (name : String) : Bool :=
  !name.isEmpty && decide ((utf8 name).length ≤ 256) && decide (name.length ≤ 80) &&
    !(name.toList.any fun c => isControl c || isBidirectional c)

structure MemberProfile where
  id : Block 32
  displayName : String
  service : Bool
  trimmed : trim displayName = displayName
  bounded : isMemberName displayName = true
  deriving DecidableEq

namespace MemberProfile

def newKind (id : Block 32) (name : String) (service : Bool) : Outcome MemberProfile :=
  if h : isMemberName (trim name) = true then .ok ⟨id, trim name, service, trim_trim name, h⟩
  else .error "member name must be 1–80 characters without control characters"

def new (id : Block 32) (name : String) : Outcome MemberProfile := newKind id name false

end MemberProfile

/-- The error of `storage::take`. -/
def truncated : String := "truncated protected state"

def invalidWorkspaceName : String :=
  "workspace name must be 1–80 characters without control or bidirectional formatting characters"

def validateWorkspaceName (name : String) : Outcome String := do
  failIf (name.toList.any fun c => isControl c || isBidirectional c) invalidWorkspaceName
  let name := trim name
  failIf (name.isEmpty || decide (320 < (utf8 name).length) || decide (80 < name.length))
    invalidWorkspaceName
  pure name

structure NameState where
  revision : U64
  head : Block 32
  name : Option String
  deriving DecidableEq

namespace NameState

def unnamed : NameState := ⟨0, zeroBlock 32, none⟩

def encode (state : NameState) : Bytes :=
  1 :: beBytes 8 state.revision.val ++ state.head.1 ++ (state.name.map utf8).getD []

def readHeader : Reader (U64 × Block 32) := do
  let revision ← takeU64 "invalid workspace name checkpoint"
  let head ← takeBlock "invalid workspace name checkpoint" 32
  pure (revision, head)

def decode (bytes : Bytes) : Outcome NameState := do
  failIf (bytes.length < 41 ∨ 361 < bytes.length ∨ bytes.headD 0 ≠ 1)
    "invalid workspace name checkpoint"
  let ((revision, head), rest) ← readHeader bytes.tail
  let name ← orFail (fromUtf8 rest) "invalid workspace name text"
  if revision = 0 ∧ head = zeroBlock 32 ∧ name.isEmpty then
    pure unnamed
  else
    failIf (revision = 0 ∨ head = zeroBlock 32) "invalid workspace name checkpoint"
    failIf ((← validateWorkspaceName name) ≠ name) "invalid workspace name checkpoint"
    pure ⟨revision, head, some name⟩

/-- What a readable checkpoint of the name can say. -/
inductive Valid : NameState → Prop where
  | unnamed : Valid unnamed
  | named {revision : U64} {head : Block 32} {name : String} (hrevision : revision ≠ 0)
      (hhead : head ≠ zeroBlock 32) (hname : validateWorkspaceName name = .ok name) :
      Valid ⟨revision, head, some name⟩

theorem valid_of_decode {bytes : Bytes} {state : NameState} (h : decode bytes = .ok state) :
    state.Valid := by
  simp only [decode, bind_eq_ok] at h
  obtain ⟨_, _, ⟨⟨revision, head⟩, rest⟩, _, name, _, h⟩ := h
  dsimp only at h
  split at h
  · obtain rfl := pure_eq_ok.mp h
    exact .unnamed
  · simp only [bind_eq_ok, failIf_eq_ok, not_or, not_not, pure_eq_ok] at h
    obtain ⟨_, ⟨hrevision, hhead⟩, _, hname, _, rfl, rfl⟩ := h
    exact .named hrevision hhead hname

theorem readHeader_encode (state : NameState) :
    readHeader (state.encode.tail) =
      .ok ((state.revision, state.head), (state.name.map utf8).getD []) := by
  have hreads : Reads readHeader (beBytes 8 state.revision.val ++ state.head.1)
      (state.revision, state.head) :=
    Reads.bind (Reads.takeU64 state.revision)
      (Reads.bind_pure (Reads.takeBlock state.head) (Reads.pure _))
  exact hreads _

theorem length_encode (state : NameState) :
    state.encode.length = 41 + ((state.name.map utf8).getD []).length := by
  simp only [encode, List.cons_append, List.length_cons, List.length_append, beBytes_length,
    state.head.2]
  omega

theorem decode_encode {state : NameState} (h : state.Valid) : decode state.encode = .ok state := by
  cases h with
  | unnamed => decide
  | @named revision head name hrevision hhead hname =>
    have hbounds := hname
    simp only [validateWorkspaceName, bind_eq_ok, failIf_eq_ok, pure_eq_ok, Bool.or_eq_true,
      not_or, decide_eq_true_iff, not_lt] at hbounds
    obtain ⟨_, _, _, ⟨⟨_, hsize⟩, _⟩, htrim⟩ := hbounds
    rw [htrim] at hsize
    have hlength : ¬ ((encode ⟨revision, head, some name⟩).length < 41 ∨
        361 < (encode ⟨revision, head, some name⟩).length ∨
          (encode ⟨revision, head, some name⟩).headD 0 ≠ 1) := by
      rw [length_encode]
      simp only [Option.map_some, Option.getD_some, encode, List.cons_append, List.headD_cons,
        ne_eq, not_true_eq_false, or_false]
      omega
    rw [decode, failIf_of_not hlength, ok_bind, readHeader_encode]
    simp [fromUtf8_utf8, hrevision, hhead, hname]

end NameState

end Arachne.Security

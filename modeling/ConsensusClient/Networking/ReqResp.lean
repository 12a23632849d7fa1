import Mathlib.Data.List.Infix
import Mathlib.Tactic.Ring
import ConsensusClient.Containers.Basic

/-!
# Requests and Responses on the Wire

`LeanCodec` of `networking/src/req_resp.rs`: the messages of the two request protocols as SSZ
bytes in Snappy frames. SSZ and Snappy are third-party crates and enter as `Encodings`.

A response with several blocks is written as the encodings of the blocks one after the other,
and read as the encoding of one block.

## Main results

* `Encodings.decodeResponse_blocks`: the decoder returns one block at most
* `blocks_survive_wire_iff`: which responses come back
* `two_blocks_lost_on_wire`: one that does not
-/

namespace ConsensusClient

/-- `Vec<u8>` -/
abbrev Bytes := List UInt8

/-- `MAX_REQUEST_BLOCKS` -/
def maxRequestBlocks : ℕ := 1024

/-- `STATUS_PROTOCOL_V1` -/
def statusProtocolV1 : String := "/leanconsensus/req/status/1/ssz_snappy"

/-- `BLOCKS_BY_ROOT_PROTOCOL_V1` -/
def blocksByRootProtocolV1 : String := "/leanconsensus/req/blocks_by_root/1/ssz_snappy"

/-! ## Messages -/

/-- `Status` -/
structure Status where
  finalized : Checkpoint
  head : Checkpoint
  deriving DecidableEq

/-- `Status::default()` -/
def Status.default : Status := ⟨⟨0, 0⟩, ⟨0, 0⟩⟩

/-- `LeanRequest` -/
inductive LeanRequest where
  | status (status : Status)
  | blocksByRoot (roots : List H256)
  deriving DecidableEq

/-- `LeanResponse` -/
inductive LeanResponse where
  | status (status : Status)
  | blocksByRoot (blocks : List SignedBlockWithAttestation)
  | empty
  deriving DecidableEq

/-! ## Errors and encodings -/

/-- The values of `io::ErrorKind` that occur. -/
inductive ErrorKind where
  | other
  | invalidData
  | unexpectedEof
  deriving DecidableEq

/-- `io::Error` -/
structure IoError where
  kind : ErrorKind
  message : String
  deriving DecidableEq

/-- `io::Result<T>` -/
abbrev IoResult (α : Type) := Except IoError α

/-- An error of the `ssz` crate in its two printed forms, `{e}` and `{e:?}`. -/
structure SszError where
  display : String
  debug : String
  deriving DecidableEq

/-- The third-party encodings: `to_ssz` and `from_ssz_default`, and the frames of `snap`. -/
structure Encodings where
  statusToSsz : Status → Except SszError Bytes
  statusFromSsz : Bytes → Except SszError Status
  blockToSsz : SignedBlockWithAttestation → Except SszError Bytes
  blockFromSsz : Bytes → Except SszError SignedBlockWithAttestation
  /-- The type of a `FrameEncoder` that writes into a vector. -/
  FrameEncoder : Type
  /-- `write_all` on a new encoder. -/
  writeAll : Bytes → IoResult FrameEncoder
  /-- `into_inner`, with the printed form of its error. -/
  intoInner : FrameEncoder → Except String Bytes
  /-- `read_to_end` of a `FrameDecoder` over the bytes. -/
  readToEnd : Bytes → IoResult Bytes

/-- The error of a failed `to_ssz`. -/
def sszEncodeFailed (e : SszError) : IoError := ⟨.other, "SSZ encode failed: " ++ e.display⟩

/-- The error of a failed `from_ssz_default`. -/
def sszDecodeFailed (what : String) (e : SszError) : IoError :=
  ⟨.other, "SSZ decode " ++ what ++ " failed: " ++ e.debug⟩

/-- The error for a name that belongs to neither protocol. -/
def unknownProtocol (protocol : String) : IoError := ⟨.other, "Unknown protocol: " ++ protocol⟩

/-- The error for a request with `count` roots, over the limit. -/
def tooManyRoots (count : ℕ) : IoError :=
  ⟨.invalidData, "Too many block roots requested: " ++ toString count ++ " > " ++
    toString maxRequestBlocks⟩

/-- `protocol.contains(part)` -/
abbrev Mentions (protocol part : String) : Prop := part.toList <:+: protocol.toList

/-- `H256::from` -/
def H256.ofBytes (bytes : Bytes) : H256 := ofBigEndian bytes

/-- `bytes.chunks(size)`: the last chunk is shorter if `size` does not divide the length. -/
def chunks (size : ℕ) (bytes : Bytes) : List Bytes := pieces size bytes

-- the name of the protocol for blocks mentions its own requests only
theorem not_mentions_status : ¬ Mentions blocksByRootProtocolV1 "status" := by decide

theorem mentions_blocks_by_root : Mentions blocksByRootProtocolV1 "blocks_by_root" := by decide

namespace Encodings

variable (lib : Encodings)

/-! ## The codec -/

/-- `LeanCodec::compress` -/
def compress (data : Bytes) : IoResult Bytes := do
  let encoder ← lib.writeAll data
  (lib.intoInner encoder).mapError fun e => ⟨.other, "Snappy framing failed: " ++ e⟩

/-- `LeanCodec::decompress` -/
def decompress (data : Bytes) : IoResult Bytes := lib.readToEnd data

/-- `LeanCodec::encode_request` -/
def encodeRequest (request : LeanRequest) : IoResult Bytes := do
  let sszBytes ← match request with
    | .status status => (lib.statusToSsz status).mapError sszEncodeFailed
    | .blocksByRoot roots => pure (roots.foldl (fun bytes root => bytes ++ root.asBytes) [])
  lib.compress sszBytes

/-- `LeanCodec::decode_request` -/
def decodeRequest (protocol : String) (data : Bytes) : IoResult LeanRequest := do
  if data = [] then
    return .status Status.default
  let sszBytes ← lib.decompress data
  if Mentions protocol "status" then
    let status ← (lib.statusFromSsz sszBytes).mapError (sszDecodeFailed "Status")
    return .status status
  else if Mentions protocol "blocks_by_root" then
    -- a last chunk of fewer than 32 bytes is skipped
    let roots := ((chunks 32 sszBytes).filter fun chunk => chunk.length = 32).map H256.ofBytes
    if roots.length > maxRequestBlocks then
      throw (tooManyRoots roots.length)
    return .blocksByRoot roots
  else
    throw (unknownProtocol protocol)

/-- The loop of `encode_response` over the blocks. -/
def blocksToSsz (blocks : List SignedBlockWithAttestation) : IoResult Bytes :=
  blocks.foldlM (fun bytes block => do
    let blockBytes ← (lib.blockToSsz block).mapError sszEncodeFailed
    pure (bytes ++ blockBytes)) []

/-- `LeanCodec::encode_response` -/
def encodeResponse (response : LeanResponse) : IoResult Bytes := do
  let sszBytes ← match response with
    | .status status => (lib.statusToSsz status).mapError sszEncodeFailed
    | .blocksByRoot blocks => lib.blocksToSsz blocks
    | .empty => pure []
  if sszBytes = [] then
    return []
  lib.compress sszBytes

/-- `LeanCodec::decode_response` -/
def decodeResponse (protocol : String) (data : Bytes) : IoResult LeanResponse := do
  if data = [] then
    return .empty
  let sszBytes ← lib.decompress data
  if Mentions protocol "status" then
    let status ← (lib.statusFromSsz sszBytes).mapError (sszDecodeFailed "Status")
    return .status status
  else if Mentions protocol "blocks_by_root" then
    if sszBytes = [] then
      return .blocksByRoot []
    let block ← (lib.blockFromSsz sszBytes).mapError (sszDecodeFailed "Block")
    return .blocksByRoot [block]
  else
    throw (unknownProtocol protocol)

/-! ## What comes back -/

/-- Snappy decodes what it frames, and there is nothing in an empty stream. -/
structure FramesBack : Prop where
  round_trip : ∀ data, ∃ framed, lib.compress data = .ok framed ∧
    lib.decompress framed = .ok data
  empty : lib.decompress [] = .ok []

/-- SSZ decodes what it encodes of the block. The encoding starts with an offset, so it is not
    empty. -/
def SszBack (block : SignedBlockWithAttestation) : Prop :=
  ∃ bytes, lib.blockToSsz block = .ok bytes ∧ bytes ≠ [] ∧ lib.blockFromSsz bytes = .ok block

variable {lib}

/-- The decoder returns one block at most. -/
theorem decodeResponse_blocks {protocol : String} {data : Bytes}
    {blocks : List SignedBlockWithAttestation}
    (h : lib.decodeResponse protocol data = .ok (.blocksByRoot blocks)) : blocks.length ≤ 1 := by
  unfold decodeResponse at h
  split_ifs at h with hdata hstatus hblocks
  · simp at h
  · obtain ⟨sszBytes, -, h⟩ := bind_eq_ok.mp h
    obtain ⟨status, -, h⟩ := bind_eq_ok.mp h
    simp at h
  · obtain ⟨sszBytes, -, h⟩ := bind_eq_ok.mp h
    -- an empty payload is an empty list, and any other one block
    split_ifs at h with hempty
    · simp only [pure_eq_ok, Except.ok.injEq, LeanResponse.blocksByRoot.injEq] at h
      simp [← h]
    · obtain ⟨block, -, h⟩ := bind_eq_ok.mp h
      simp only [pure_eq_ok, Except.ok.injEq, LeanResponse.blocksByRoot.injEq] at h
      simp [← h]
  · obtain ⟨sszBytes, -, h⟩ := bind_eq_ok.mp h
    simp [throw, throwThe, MonadExceptOf.throw] at h

/-- A frame of something is not empty. -/
theorem FramesBack.framed_ne_nil (hframe : lib.FramesBack) {data framed : Bytes}
    (hdata : data ≠ []) (h : lib.decompress framed = .ok data) : framed ≠ [] := by
  rintro rfl
  exact hdata (Except.ok.inj (h.symm.trans hframe.empty))

/-- One block is read back. -/
theorem FramesBack.one_block (hframe : lib.FramesBack) {block : SignedBlockWithAttestation}
    (hssz : lib.SszBack block) :
    (lib.encodeResponse (.blocksByRoot [block]) >>= lib.decodeResponse blocksByRootProtocolV1) =
      .ok (.blocksByRoot [block]) := by
  obtain ⟨bytes, hto, hne, hfrom⟩ := hssz
  obtain ⟨framed, hcompress, hdecompress⟩ := hframe.round_trip bytes
  have hencode : lib.encodeResponse (.blocksByRoot [block]) = .ok framed := by
    simp [encodeResponse, blocksToSsz, hto, Except.mapError, hne, hcompress]
  have hframed := hframe.framed_ne_nil hne hdecompress
  rw [hencode, ok_bind]
  unfold decodeResponse
  rw [if_neg hframed, hdecompress, ok_bind, if_neg not_mentions_status,
    if_pos mentions_blocks_by_root, if_neg hne, hfrom]
  rfl

end Encodings

/-- Of the responses with at least one block, up to `MAX_REQUEST_BLOCKS` and beyond, the decoder
    gives back those with one block only. -/
theorem blocks_survive_wire_iff {lib : Encodings} (hframe : lib.FramesBack)
    {blocks : List SignedBlockWithAttestation} (hssz : ∀ block ∈ blocks, lib.SszBack block)
    (hmin : 1 ≤ blocks.length) :
    (lib.encodeResponse (.blocksByRoot blocks) >>=
        lib.decodeResponse blocksByRootProtocolV1) = .ok (.blocksByRoot blocks) ↔
      blocks.length = 1 := by
  constructor
  · intro h
    obtain ⟨framed, -, hdecode⟩ := bind_eq_ok.mp h
    have := Encodings.decodeResponse_blocks hdecode
    omega
  · intro hone
    obtain ⟨block, rfl⟩ := List.length_eq_one_iff.mp hone
    exact hframe.one_block (hssz block (by simp))

/-! ## One block and two blocks -/

namespace SampleWire

/-- A block that is zero but for its slot. -/
def block (slot : ℕ) : SignedBlockWithAttestation where
  message := {
    block := { slot, proposerIndex := 0, parentRoot := 0, stateRoot := 0, body := ⟨[]⟩ }
    proposerAttestation := ⟨0, ⟨0, ⟨0, 0⟩, ⟨0, 0⟩, ⟨0, 0⟩⟩⟩ }
  signature := { attestationSignatures := [], proposerSignature := 0 }

/-- An unsigned integer of the given width in SSZ. -/
def uint (width value : ℕ) : Bytes :=
  (List.range width).map fun i => UInt8.ofNat (value / 256 ^ i)

/-- The SSZ bytes of the block at `slot`. -/
def blockBytes (slot : ℕ) : Bytes :=
  -- the offsets of message and signatures
  uint 4 8 ++ uint 4 236 ++
    -- the offset of the block, and the proposer's attestation
    uint 4 140 ++ List.replicate 136 0 ++
    -- the block with the offset of its body, and the empty body
    uint 8 slot ++ List.replicate 72 0 ++ uint 4 84 ++ uint 4 4 ++
    -- the offset of the empty list of proofs, and the proposer's signature
    uint 4 3116 ++ List.replicate 3112 0

def sszError : SszError := ⟨"invalid offset", "InvalidOffset"⟩

/-- The chunk that starts a Snappy stream: `sNaPpY` with its header. -/
def streamIdentifier : Bytes := [255, 6, 0, 0, 115, 78, 97, 80, 112, 89]

/-- `to_ssz` on the blocks at the slots 1 and 2. -/
def blockToSsz (b : SignedBlockWithAttestation) : Except SszError Bytes :=
  if b = block 1 then .ok (blockBytes 1)
  else if b = block 2 then .ok (blockBytes 2)
  else .error sszError

/-- `from_ssz_default` on their bytes. -/
def blockFromSsz (bytes : Bytes) : Except SszError SignedBlockWithAttestation :=
  if bytes = blockBytes 1 then .ok (block 1)
  else if bytes = blockBytes 2 then .ok (block 2)
  else .error sszError

/-- SSZ on these blocks and on the default status, with frames that leave the checksum out. -/
def encodings : Encodings where
  statusToSsz status :=
    if status = Status.default then .ok (List.replicate 80 0) else .error sszError
  statusFromSsz bytes :=
    if bytes = List.replicate 80 0 then .ok Status.default else .error sszError
  blockToSsz := blockToSsz
  blockFromSsz := blockFromSsz
  FrameEncoder := Bytes
  writeAll data := .ok data
  intoInner written := if written = [] then .ok [] else .ok (streamIdentifier ++ written)
  readToEnd bytes :=
    if bytes = [] then .ok []
    else if bytes.take 10 = streamIdentifier then .ok (bytes.drop 10)
    else .error ⟨.other, "snappy: corrupt input"⟩

theorem framesBack : encodings.FramesBack where
  round_trip := by
    intro data
    by_cases hdata : data = []
    · exact ⟨[], by simp [Encodings.compress, encodings, Except.mapError, hdata],
        by simp [Encodings.decompress, encodings, hdata]⟩
    · exact ⟨streamIdentifier ++ data,
        by simp [Encodings.compress, encodings, Except.mapError, hdata],
        by simp [Encodings.decompress, encodings, streamIdentifier]⟩
  empty := rfl

theorem blockBytes_ne_nil (slot : ℕ) : blockBytes slot ≠ [] := by
  simp only [blockBytes, uint, ne_eq, List.append_eq_nil_iff, List.map_eq_nil_iff,
    List.range_eq_nil]
  omega

theorem sszBack : ∀ b ∈ [block 1, block 2], encodings.SszBack b := by
  have hblock : block 2 ≠ block 1 := by decide
  have hbytes : blockBytes 2 ≠ blockBytes 1 := by decide +kernel
  have hto : encodings.blockToSsz = blockToSsz := rfl
  have hfrom : encodings.blockFromSsz = blockFromSsz := rfl
  intro b hb
  rcases List.mem_pair.mp hb with rfl | rfl
  · refine ⟨blockBytes 1, ?_, blockBytes_ne_nil 1, ?_⟩
    · rw [hto, blockToSsz, if_pos rfl]
    · rw [hfrom, blockFromSsz, if_pos rfl]
  · refine ⟨blockBytes 2, ?_, blockBytes_ne_nil 2, ?_⟩
    · rw [hto, blockToSsz, if_neg hblock, if_pos rfl]
    · rw [hfrom, blockFromSsz, if_neg hbytes, if_pos rfl]

end SampleWire

/-- A response with one block comes back. -/
theorem one_block_survives_wire :
    (SampleWire.encodings.encodeResponse (.blocksByRoot [SampleWire.block 1]) >>=
        SampleWire.encodings.decodeResponse blocksByRootProtocolV1) =
      .ok (.blocksByRoot [SampleWire.block 1]) := by
  have hssz : ∀ b ∈ [SampleWire.block 1], SampleWire.encodings.SszBack b := by
    intro b hb
    exact SampleWire.sszBack b (by simp_all)
  exact (blocks_survive_wire_iff SampleWire.framesBack hssz (by simp)).mpr rfl

/-- A response with two blocks does not. -/
theorem two_blocks_lost_on_wire :
    SampleWire.encodings.FramesBack ∧
      (∀ b ∈ [SampleWire.block 1, SampleWire.block 2], SampleWire.encodings.SszBack b) ∧
      (SampleWire.encodings.encodeResponse
          (.blocksByRoot [SampleWire.block 1, SampleWire.block 2]) >>=
        SampleWire.encodings.decodeResponse blocksByRootProtocolV1) ≠
      .ok (.blocksByRoot [SampleWire.block 1, SampleWire.block 2]) := by
  refine ⟨SampleWire.framesBack, SampleWire.sszBack, fun h => ?_⟩
  obtain ⟨framed, -, hdecode⟩ := bind_eq_ok.mp h
  have hlength := Encodings.decodeResponse_blocks hdecode
  simp at hlength

end ConsensusClient

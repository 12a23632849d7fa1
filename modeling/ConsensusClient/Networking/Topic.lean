import ConsensusClient.Lib.Outcome
import ConsensusClient.Lib.Pieces

/-!
# Gossip Topics

`networking/src/gossipsub/topic.rs`: the names of the topics that blocks and attestations are
gossiped on, `/leanconsensus/<fork>/<kind>/ssz_snappy`. A name is written by two formatters and
read by a parser that drops all leading slashes and looks at the four parts by position.

## Main results

* `split_eq_iff`, `trimStartMatches_toList_eq_iff`: the string functions of the parser
* `GossipsubTopic.decode_eq_ok_iff`: the names that are accepted
* `topic_names_parse_exactly`: parser and formatters together, for every string
-/

namespace ConsensusClient

/-- `TOPIC_PREFIX` -/
def topicPrefix : String := "leanconsensus"

/-- `SSZ_SNAPPY_ENCODING_POSTFIX` -/
def sszSnappyEncodingPostfix : String := "ssz_snappy"

/-- `BLOCK_TOPIC` -/
def blockTopic : String := "block"

/-- `ATTESTATION_TOPIC` -/
def attestationTopic : String := "attestation"

/-- `GossipsubKind` -/
inductive GossipsubKind where
  | block
  | attestation
  deriving DecidableEq

/-- `GossipsubTopic` -/
structure GossipsubTopic where
  fork : String
  kind : GossipsubKind
  deriving DecidableEq

/-- `TopicHash` of `libp2p`: the name itself, as no hash is taken of an `IdentTopic`. -/
structure TopicHash where
  hash : String
  deriving DecidableEq

/-- The printed forms `{:?}` of a topic hash and of a string. -/
structure DebugForms where
  topicHash : TopicHash → String
  str : String → String

/-- `get_topics` -/
def getTopics (fork : String) : List GossipsubTopic := [⟨fork, .block⟩, ⟨fork, .attestation⟩]

/-! ## Strings -/

/-- `s.trim_start_matches(c)` -/
def trimStartMatches (c : Char) (s : String) : String :=
  String.ofList (s.toList.dropWhile (· == c))

/-- `s.split(c)` -/
def split (c : Char) (s : String) : List String := (s.toList.splitOn c).map String.ofList

/-- The parts of a string are those that give it back when they are joined. -/
theorem split_eq_iff {c : Char} {s : String} {parts : List String} (hne : parts ≠ []) :
    split c s = parts ↔ (∀ part ∈ parts, c ∉ part.toList) ∧
      s.toList = [c].intercalate (parts.map String.toList) := by
  have hlists : split c s = parts ↔ s.toList.splitOn c = parts.map String.toList := by
    unfold split
    constructor
    · rintro rfl
      simp [Function.comp_def]
    · intro h
      rw [h]
      simp [Function.comp_def]
  rw [hlists, splitOn_eq_iff (by simpa using hne)]
  simp

/-- What is left when the leading `c` are dropped. -/
theorem trimStartMatches_toList_eq_iff {c : Char} {s : String} {rest : List Char} :
    (trimStartMatches c s).toList = rest ↔
      rest.head? ≠ some c ∧ ∃ n, s.toList = List.replicate n c ++ rest := by
  rw [trimStartMatches, String.toList_ofList, dropWhile_eq_iff]

/-! ## The formatters -/

/-- `Display` of `GossipsubKind` -/
def GossipsubKind.display : GossipsubKind → String
  | .block => blockTopic
  | .attestation => attestationTopic

namespace GossipsubTopic

/-- `Display` of `GossipsubTopic` -/
def display (topic : GossipsubTopic) : String :=
  "/" ++ topicPrefix ++ "/" ++ topic.fork ++ "/" ++ topic.kind.display ++ "/" ++
    sszSnappyEncodingPostfix

/-- `String::from` -/
def intoString (topic : GossipsubTopic) : String := topic.display

/-- `TopicHash::from` -/
def toTopicHash (val : GossipsubTopic) : TopicHash :=
  let kindStr := match val.kind with
    | .block => blockTopic
    | .attestation => attestationTopic
  ⟨"/" ++ topicPrefix ++ "/" ++ val.fork ++ "/" ++ kindStr ++ "/" ++ sszSnappyEncodingPostfix⟩

/-! ## The parser -/

variable (debug : DebugForms)

/-- `split_topic`, with the number of parts in the type. -/
def splitTopic (topic : TopicHash) : Except String (Vector String 4) :=
  let parts := split '/' (trimStartMatches '/' topic.hash)
  if h : parts.length = 4 then .ok ⟨parts.toArray, by rw [List.size_toArray, h]⟩
  else .error ("Invalid topic part count: " ++ debug.topicHash topic)

/-- `validate_parts` -/
def validateParts (parts : Vector String 4) (topic : TopicHash) : Except String Unit :=
  if parts[0] ≠ topicPrefix ∨ parts[3] ≠ sszSnappyEncodingPostfix then
    .error ("Invalid topic parts: " ++ debug.topicHash topic)
  else .ok ()

/-- `extract_fork` -/
def extractFork (parts : Vector String 4) : String := parts[1]

/-- `extract_kind` -/
def extractKind (parts : Vector String 4) : Except String GossipsubKind :=
  if parts[2] = blockTopic then .ok .block
  else if parts[2] = attestationTopic then .ok .attestation
  else .error ("Invalid topic kind: " ++ debug.str parts[2])

/-- `GossipsubTopic::decode` -/
def decode (topic : TopicHash) : Except String GossipsubTopic := do
  let topicParts ← splitTopic debug topic
  validateParts debug topicParts topic
  let fork := extractFork topicParts
  let kind ← extractKind debug topicParts
  return { fork, kind }

variable {debug}

theorem splitTopic_eq_ok {topic : TopicHash} {parts : Vector String 4} :
    splitTopic debug topic = .ok parts ↔
      split '/' (trimStartMatches '/' topic.hash) = parts.toList := by
  unfold splitTopic
  dsimp only
  split_ifs with hlength
  · rw [Except.ok.injEq, ← Vector.toList_inj, Vector.toList_mk, List.toList_toArray]
  · simp only [false_iff]
    intro h
    simp [h] at hlength

theorem validateParts_eq_ok {topic : TopicHash} {parts : Vector String 4} {u : Unit} :
    validateParts debug parts topic = .ok u ↔
      parts[0] = topicPrefix ∧ parts[3] = sszSnappyEncodingPostfix := by
  unfold validateParts
  split_ifs with h
  · simp only [false_iff]
    tauto
  · simp only [true_iff]
    tauto

theorem extractKind_eq_ok {parts : Vector String 4} {kind : GossipsubKind} :
    extractKind debug parts = .ok kind ↔ parts[2] = kind.display := by
  have hne : blockTopic ≠ attestationTopic := by decide
  unfold extractKind
  split_ifs with hblock hattestation
  · rw [hblock]
    cases kind with
    | block => simp [GossipsubKind.display]
    | attestation => simp [GossipsubKind.display, hne]
  · rw [hattestation]
    cases kind with
    | block => simp [GossipsubKind.display, hne.symm]
    | attestation => simp [GossipsubKind.display]
  · cases kind with
    | block => simp [GossipsubKind.display, hblock]
    | attestation => simp [GossipsubKind.display, hattestation]

theorem toList_four (parts : Vector String 4) :
    parts.toList = [parts[0], parts[1], parts[2], parts[3]] := by
  apply List.ext_getElem
  · simp
  · intro i hi hi'
    have hlt : i < 4 := by simpa using hi
    rcases (by omega : i = 0 ∨ i = 1 ∨ i = 2 ∨ i = 3) with rfl | rfl | rfl | rfl <;> simp

/-- The parser accepts a name by its four parts. -/
theorem decode_eq_ok {name : TopicHash} {topic : GossipsubTopic} :
    decode debug name = .ok topic ↔ split '/' (trimStartMatches '/' name.hash) =
      [topicPrefix, topic.fork, topic.kind.display, sszSnappyEncodingPostfix] := by
  unfold decode
  simp only [bind_eq_ok, splitTopic_eq_ok, validateParts_eq_ok, extractKind_eq_ok]
  constructor
  · rintro ⟨parts, hsplit, -, ⟨hfirst, hlast⟩, kind, hkind, h⟩
    obtain rfl : { fork := extractFork parts, kind } = topic := by simpa using h
    rw [hsplit, toList_four, hfirst, hkind, hlast]
    rfl
  · intro h
    refine ⟨#v[topicPrefix, topic.fork, topic.kind.display, sszSnappyEncodingPostfix], ?_, (),
      ⟨rfl, rfl⟩, topic.kind, rfl, rfl⟩
    simpa using h

/-- The part of the name after the leading slashes. -/
def body (topic : GossipsubTopic) : String :=
  topicPrefix ++ "/" ++ topic.fork ++ "/" ++ topic.kind.display ++ "/" ++
    sszSnappyEncodingPostfix

theorem body_toList (topic : GossipsubTopic) :
    topic.body.toList = ['/'].intercalate
      ([topicPrefix, topic.fork, topic.kind.display, sszSnappyEncodingPostfix].map
        String.toList) := by
  simp [body, List.intercalate]

theorem body_eq (topic : GossipsubTopic) :
    topic.body = "leanconsensus/" ++ topic.fork ++ "/" ++ topic.kind.display ++ "/ssz_snappy" := by
  have hfirst : "leanconsensus/" = topicPrefix ++ "/" := by decide
  have hlast : "/ssz_snappy" = "/" ++ sszSnappyEncodingPostfix := by decide
  simp only [hfirst, hlast, body, String.append_assoc]

theorem head_body (topic : GossipsubTopic) : topic.body.toList.head? ≠ some '/' := by
  simp [body_eq]

theorem slash_not_mem_parts {topic : GossipsubTopic} :
    (∀ part ∈ [topicPrefix, topic.fork, topic.kind.display, sszSnappyEncodingPostfix],
      '/' ∉ part.toList) ↔ '/' ∉ topic.fork.toList := by
  have hfirst : '/' ∉ topicPrefix.toList := by decide
  have hlast : '/' ∉ sszSnappyEncodingPostfix.toList := by decide
  have hkind : '/' ∉ topic.kind.display.toList := by
    cases topic.kind <;> decide
  simp [hfirst, hlast, hkind]

/-- The parser accepts the names that are slashes and the body of a topic whose fork has no
    slash. -/
theorem decode_eq_ok_iff {s : String} {topic : GossipsubTopic} :
    decode debug ⟨s⟩ = .ok topic ↔ '/' ∉ topic.fork.toList ∧
      ∃ n, s = String.ofList (List.replicate n '/') ++ topic.body := by
  have hhead := topic.head_body
  rw [decode_eq_ok, split_eq_iff (by simp), slash_not_mem_parts, ← body_toList,
    trimStartMatches_toList_eq_iff]
  simp only [hhead, ne_eq, not_false_eq_true, true_and, ← String.toList_inj,
    String.toList_append, String.toList_ofList]

theorem display_eq_body (topic : GossipsubTopic) : topic.display = "/" ++ topic.body := by
  simp only [display, body, String.append_assoc]

theorem toTopicHash_eq (topic : GossipsubTopic) : topic.toTopicHash = ⟨topic.display⟩ := by
  cases topic with
  | mk fork kind => cases kind <;> rfl

/-- A topic is read back from its own name if the fork has no slash. -/
theorem decode_toTopicHash_iff {topic : GossipsubTopic} :
    decode debug topic.toTopicHash = .ok topic ↔ '/' ∉ topic.fork.toList := by
  rw [toTopicHash_eq, decode_eq_ok_iff, display_eq_body]
  simp only [and_iff_left_iff_imp]
  intro _
  exact ⟨1, by simp⟩

theorem count_slash_body (topic : GossipsubTopic) :
    topic.body.toList.count '/' = 3 + topic.fork.toList.count '/' := by
  have hfirst : topicPrefix.toList.count '/' = 0 := by decide
  have hlast : sszSnappyEncodingPostfix.toList.count '/' = 0 := by decide
  have hkind : topic.kind.display.toList.count '/' = 0 := by
    cases topic.kind <;> decide
  simp [body, hfirst, hlast, hkind]
  omega

/-- The name of a topic is read as this topic or not at all. -/
theorem eq_of_decode_toTopicHash {topic read : GossipsubTopic}
    (h : decode debug topic.toTopicHash = .ok read) : read = topic := by
  have hread := h
  rw [toTopicHash_eq, decode_eq_ok_iff] at h
  obtain ⟨hfork, n, hname⟩ := h
  have htrim : (trimStartMatches '/' topic.display).toList = read.body.toList :=
    trimStartMatches_toList_eq_iff.mpr ⟨read.head_body, n, by simp [hname]⟩
  have htrim' : (trimStartMatches '/' topic.display).toList = topic.body.toList :=
    trimStartMatches_toList_eq_iff.mpr ⟨topic.head_body, 1, by simp [display_eq_body]⟩
  -- the two have as many slashes, so there is none in the fork
  have hcount := congrArg (List.count '/') (htrim.symm.trans htrim')
  rw [count_slash_body, count_slash_body, List.count_eq_zero.mpr hfork] at hcount
  have hnone : '/' ∉ topic.fork.toList := List.count_eq_zero.mp (by omega)
  exact Except.ok.inj (hread.symm.trans (decode_toTopicHash_iff.mpr hnone))

end GossipsubTopic

/-- What the parser accepts, for every string, and that the names of topics are told apart. -/
theorem topic_names_parse_exactly (debug : DebugForms) :
    (∀ (s : String) (topic : GossipsubTopic), GossipsubTopic.decode debug ⟨s⟩ = .ok topic ↔
      '/' ∉ topic.fork.toList ∧ ∃ n, s = String.ofList (List.replicate n '/') ++
        ("leanconsensus/" ++ topic.fork ++ "/" ++ topic.kind.display ++ "/ssz_snappy")) ∧
    (∀ topic : GossipsubTopic,
      GossipsubTopic.decode debug topic.toTopicHash = .ok topic ↔ '/' ∉ topic.fork.toList) ∧
    (∀ topic : GossipsubTopic,
      topic.intoString = topic.display ∧ topic.toTopicHash.hash = topic.display) ∧
    ∀ topic₁ topic₂ : GossipsubTopic, '/' ∉ topic₁.fork.toList → '/' ∉ topic₂.fork.toList →
      topic₁ ≠ topic₂ → topic₁.display ≠ topic₂.display := by
  refine ⟨fun s topic => ?_, fun topic => GossipsubTopic.decode_toTopicHash_iff,
    fun topic => ⟨rfl, ?_⟩, ?_⟩
  · rw [GossipsubTopic.decode_eq_ok_iff, GossipsubTopic.body_eq]
  · rw [GossipsubTopic.toTopicHash_eq]
  · intro topic₁ topic₂ hfork₁ hfork₂ hne hdisplay
    -- the parser reads both topics from the one name
    have hread₁ : GossipsubTopic.decode debug topic₁.toTopicHash = .ok topic₁ :=
      GossipsubTopic.decode_toTopicHash_iff.mpr hfork₁
    have hread₂ : GossipsubTopic.decode debug topic₂.toTopicHash = .ok topic₂ :=
      GossipsubTopic.decode_toTopicHash_iff.mpr hfork₂
    rw [GossipsubTopic.toTopicHash_eq, hdisplay, ← GossipsubTopic.toTopicHash_eq, hread₂] at hread₁
    exact hne (Except.ok.inj hread₁).symm

/-- The printed forms of names that have nothing to escape. -/
def DebugForms.quoted : DebugForms where
  topicHash topic := "TopicHash \x7b hash: \"" ++ topic.hash ++ "\" \x7d"
  str s := "\"" ++ s ++ "\""

/-- The topics of the devnet are read, also with one more slash, and differ. -/
theorem devnet_topics_parse :
    GossipsubTopic.decode .quoted ⟨"//leanconsensus/devnet0/block/ssz_snappy"⟩ =
        .ok ⟨"devnet0", .block⟩ ∧
      (GossipsubTopic.mk "devnet0" .block).display ≠
        (GossipsubTopic.mk "devnet0" .attestation).display :=
  ⟨((topic_names_parse_exactly .quoted).1 _ ⟨"devnet0", .block⟩).mpr
      ⟨by decide, 2, by decide⟩,
    (topic_names_parse_exactly .quoted).2.2.2 _ _ (by decide) (by decide) (by decide)⟩

end ConsensusClient

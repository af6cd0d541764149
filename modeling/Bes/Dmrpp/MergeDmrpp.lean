import Bes.Dispatch.Util
import Bes.Lib.Find
import Bes.Lib.XmlTag

/-! `merge_dmrpp`: the chunk elements of the variables of a supplemental DMR++ text are found by searches
for their marks, and the address of the data file is added to them. -/
namespace Bes.Dmrpp.MergeDmrpp
open Dispatch Lib.Find Lib.XmlTag List

inductive VarType
  | float32
  | int32
  | float64
  | byte
  | int16
  | uint16
  | string
  | uint32
  | int8
  | int64
  | uint64
  | uint8
  | char
deriving DecidableEq

def VarType.name : VarType → Str
  | .float32 => "Float32".toList
  | .int32 => "Int32".toList
  | .float64 => "Float64".toList
  | .byte => "Byte".toList
  | .int16 => "Int16".toList
  | .uint16 => "UInt16".toList
  | .string => "String".toList
  | .uint32 => "UInt32".toList
  | .int8 => "Int8".toList
  | .int64 => "Int64".toList
  | .uint64 => "UInt64".toList
  | .uint8 => "UInt8".toList
  | .char => "Char".toList

def varTypeList : List VarType :=
  [.float32, .int32, .float64, .byte, .int16, .uint16, .string, .uint32, .int8, .int64, .uint64, .uint8,
    .char]

/-! The marks, all of them behind a `<`. -/

def varMark (type : VarType) : Str := type.name ++ " name=\"".toList

def endMark (type : VarType) : Str := "/".toList ++ type.name ++ ">".toList

def chunksMark : Str := "dmrpp:chunks".toList

def chunksEndMark : Str := "/dmrpp:chunks>".toList

def chunkMark : Str := "dmrpp:chunk ".toList

def chunkLineMark : Str := "dmrpp:chunk offset=".toList

def closeMark : Str := ['/', '>']

def earlierVar (str : Str) (strPos : Nat) (best : Option (Nat × VarType)) (type : VarType) :
    Option (Nat × VarType) :=
  match find str ('<' :: varMark type) strPos with
  | none => best
  | some p =>
      match best with
      | none => some (p, type)
      | some (q, other) => if q > p then some (p, type) else some (q, other)

def nextVar (str : Str) (strPos : Nat) : Option (Nat × VarType) :=
  varTypeList.foldl (earlierVar str strPos) none

/-- `find_last_not_of (' ', start - 1) + 1`. For no position, and for zero, `start - 1` is behind the
text. -/
def afterLastNotBlank (str : Str) (start : Option Nat) : Nat :=
  match start with
  | some (p + 1) => ((str.take (p + 1)).rdropWhile (· = ' ')).length
  | _ => (str.rdropWhile (· = ' ')).length

/-- What `find_chunk_info` finds out. -/
structure ChunkSpan where
  start : Nat
  stop : Option Nat
  isMark1 : Bool

/-- `find_chunk_info`, apart from its result. The end keeps its old value when there is no mark at all. -/
def findChunkInfo (str : Str) (strPos : Nat) (oldStop : Option Nat) : ChunkSpan :=
  match find str ('<' :: chunksMark) strPos with
  | none =>
      let start := find str ('<' :: chunkMark) strPos
      ⟨afterLastNotBlank str start, if start.isSome then find str closeMark strPos else oldStop, false⟩
  | some p => ⟨afterLastNotBlank str (some p), find str ('<' :: chunksEndMark) strPos, true⟩

def ChunkSpan.endsBefore (span : ChunkSpan) (varEndPos : Nat) : Bool :=
  match span.stop with
  | none => false
  | some stop => !decide (varEndPos ≤ stop)

/-- The text of the chunk information. An end in front of the start makes the length a huge number, and
`substr` takes all that follows. -/
def chunkText (str : Str) (span : ChunkSpan) : Str :=
  (if span.start ≤ span.stop.getD 0 then
    (str.drop span.start).take (span.stop.getD 0 - span.start)
  else str.drop span.start) ++
  (if span.isMark1 then '<' :: chunksEndMark else closeMark)

structure VarInfo where
  type : VarType
  name : Str
  chunkInfo : Str
deriving DecidableEq

inductive Step
  | done
  | malformed (isMark1 : Bool)
  | found (info : VarInfo) (strPos : Nat) (stop : Option Nat) (isMark1 : Bool)
deriving DecidableEq

/-- One round of the loop of `obtain_var_info`. -/
def obtainStep (str : Str) (strPos : Nat) (oldStop : Option Nat) (isMark1 : Bool) : Step :=
  match nextVar str strPos with
  | none => .done
  | some (p, type) =>
      let namePos := p + (varMark type).length + 1
      match find str ['"'] namePos with
      | none => .malformed isMark1
      | some nameEnd =>
          match find str ('<' :: endMark type) nameEnd with
          | none => .malformed isMark1
          | some varEndPos =>
              let span := findChunkInfo str nameEnd oldStop
              if span.endsBefore varEndPos then
                .found ⟨type, (str.drop namePos).take (nameEnd - namePos), chunkText str span⟩
                  (varEndPos + 1) span.stop span.isMark1
              else .malformed span.isMark1

structure Obtained where
  wellFormed : Bool
  infos : List VarInfo
  isMark1 : Bool

theorem earlierVar_spec (best : Option (Nat × VarType)) (next : VarType) :
    (∀ p type, earlierVar str strPos best next = some (p, type) →
      best = some (p, type) ∨ type = next ∧ find str ('<' :: varMark type) strPos = some p) ∧
    ∀ p type, best = some (p, type) ∨ type = next ∧ find str ('<' :: varMark type) strPos = some p →
      ∃ q other, earlierVar str strPos best next = some (q, other) ∧ q ≤ p := by
  unfold earlierVar
  cases hfound : find str ('<' :: varMark next) strPos with
  | none => grind
  | some p => cases best <;> grind

theorem foldl_earlierVar (types : List VarType) (best : Option (Nat × VarType)) :
    (∀ p type, types.foldl (earlierVar str strPos) best = some (p, type) →
      best = some (p, type) ∨ find str ('<' :: varMark type) strPos = some p) ∧
    ∀ p type, best = some (p, type) ∨ type ∈ types ∧ find str ('<' :: varMark type) strPos = some p →
      ∃ q other, types.foldl (earlierVar str strPos) best = some (q, other) ∧ q ≤ p := by
  induction types generalizing best with
  | nil => grind
  | cons next types ih =>
    obtain ⟨hfrm, hlea⟩ := ih (earlierVar str strPos best next)
    have hstp := @earlierVar_spec str strPos best next
    grind

theorem nextVar_spec (str : Str) (strPos : Nat) :
    (∀ p type, nextVar str strPos = some (p, type) → find str ('<' :: varMark type) strPos = some p) ∧
    ∀ p type, find str ('<' :: varMark type) strPos = some p →
      ∃ q other, nextVar str strPos = some (q, other) ∧ q ≤ p := by
  obtain ⟨hfrm, hlea⟩ := foldl_earlierVar varTypeList none
  refine ⟨fun p type h => (hfrm p type h).resolve_left nofun, fun p type h => hlea p type ?_⟩
  exact .inr ⟨by cases type <;> decide, h⟩

theorem strPos_lt_of_found {str : Str} {strPos next : Nat} {oldStop stop : Option Nat}
    {isMark1 mark1 : Bool} {info : VarInfo}
    (h : obtainStep str strPos oldStop isMark1 = .found info next stop mark1) :
    strPos < next ∧ next ≤ str.length := by
  unfold obtainStep at h
  split at h
  · cases h
  next p type hnext =>
    have hp := (find_eq_some (cons_ne_nil _ _) ((nextVar_spec str strPos).1 p type hnext)).1
    dsimp only at h
    split at h
    · cases h
    next nameEnd hnam =>
      have hnae := (find_eq_some (cons_ne_nil _ _) hnam).1
      split at h
      · cases h
      next varEndPos hend =>
        obtain ⟨hle, hlen⟩ := find_eq_some (cons_ne_nil _ _) hend
        rw [length_cons] at hlen
        split at h
        · cases h
          omega
        · cases h

def obtainLoop (str : Str) (strPos : Nat) (oldStop : Option Nat) (isMark1 : Bool) : Obtained :=
  if strPos < str.length then
    match _hstep : obtainStep str strPos oldStop isMark1 with
    | .done => ⟨true, [], isMark1⟩
    | .malformed mark1 => ⟨false, [], mark1⟩
    | .found info next stop mark1 =>
        let rest := obtainLoop str next stop mark1
        ⟨rest.wellFormed, info :: rest.infos, rest.isMark1⟩
  else ⟨true, [], isMark1⟩
termination_by str.length - strPos
decreasing_by
  have hfound := strPos_lt_of_found _hstep
  omega

def obtainVarInfo (str : Str) (isMark1 : Bool) : Obtained :=
  if str = [] then ⟨false, [], isMark1⟩ else obtainLoop str 0 (some 0) isMark1

def finishLines (chunkInfo tempStr : Str) (foundLine : Bool) : Str :=
  if foundLine then tempStr else chunkInfo

theorem strPos_lt_lineEnd (htmp : find chunkInfo ('<' :: chunkLineMark) strPos = some tempPos)
    (hline : find chunkInfo closeMark tempPos = some lineEnd) :
    strPos < lineEnd ∧ lineEnd < chunkInfo.length := by
  have hsta := (find_eq_some (cons_ne_nil _ _) htmp).1
  obtain ⟨hle, hlen⟩ := find_eq_some (cons_ne_nil _ _) hline
  have hne : tempPos ≠ lineEnd := by
    intro heq
    have hopen := prefix_drop_of_find htmp
    have hclo := prefix_drop_of_find hline
    rw [heq] at hopen
    obtain ⟨rest, hrest⟩ := hclo
    rw [← hrest] at hopen
    exact absurd (cons_prefix_cons.mp hopen).1 (by decide)
  rw [length_cons] at hlen
  omega

def addFaddrChunkCompLines (chunkInfo fileAddr : Str) (strPos : Nat) (tempStr : Str)
    (foundLine : Bool) : Str :=
  match _htemp : find chunkInfo ('<' :: chunkLineMark) strPos with
  | some tempPos =>
      match _hline : find chunkInfo closeMark tempPos with
      | some lineEnd =>
          addFaddrChunkCompLines chunkInfo fileAddr lineEnd
            (tempStr ++ (chunkInfo.drop strPos).take (lineEnd - strPos) ++ fileAddr) true
      | none => finishLines chunkInfo tempStr foundLine
  | none =>
      match find chunkInfo ('<' :: chunksEndMark) strPos with
      | some _ => finishLines chunkInfo (tempStr ++ ' ' :: chunkInfo.drop strPos) foundLine
      | none => finishLines chunkInfo tempStr foundLine
termination_by chunkInfo.length - strPos
decreasing_by
  have hlt := strPos_lt_lineEnd _htemp _hline
  omega

def addFaddrContigLine (chunkInfo fileAddr : Str) : Str :=
  match find chunkInfo closeMark 0 with
  | none => chunkInfo
  | some lineEnd => chunkInfo.take lineEnd ++ fileAddr ++ ' ' :: chunkInfo.drop lineEnd

def addrMark : Str := "dmrpp:href=\"".toList

def nameMark : Str := " name=\"".toList

/-- Whether the text has a file name; none for `std::out_of_range`. Without a mark the start wraps around
to six. -/
def fileName (str : Str) : Option Bool :=
  let start := ((find str nameMark 0).map (· + 7)).getD 6
  let stop := find str ['"'] start
  if start ≤ str.length then
    some ((find str nameMark 0).isSome && stop.isSome &&
      !((str.drop start).take (stop.getD str.length - start)).isEmpty)
  else none

def faddrEnds (str : Str) : Bool :=
  match find str addrMark 0 with
  | none => true
  | some p => (find str ['"'] (p + addrMark.length)).isSome

def href (faddrSource : Str) : Str := " href=\"".toList ++ faddrSource ++ ['"']

def addFaddr (isMark1 : Bool) (fileAddr chunkInfo : Str) : Str :=
  if isMark1 then addFaddrChunkCompLines chunkInfo fileAddr 0 [] false
  else addFaddrContigLine chunkInfo fileAddr

def addFaddrChunkInfo (str : Str) (chunkInfo : List Str) (isMark1 : Bool) (faddrSource : Str) :
    Option (Bool × List Str) :=
  match chunkInfo with
  | [] => some (true, [])
  | first :: _ =>
      if (find first addrMark 0).isSome then some (true, chunkInfo)
      else (fileName str).map fun named =>
        (named && faddrEnds str, chunkInfo.map (addFaddr isMark1 (href faddrSource)))

def OfTags (tags : List Str) (segment : Str) : Prop := '<' ∉ segment ∧ ∃ tag ∈ tags, tag <+: segment

def childTags : List Str :=
  ["Dim".toList, "Attribute".toList, "Map".toList, "Value".toList, "/Dim".toList, "/Attribute".toList,
    "/Map".toList, "/Value".toList]

def outerTags : List Str :=
  ["?xml".toList, "Dataset".toList, "Dimension".toList, "Attribute".toList, "Value".toList,
    "/Dataset".toList, "/Dimension".toList, "/Attribute".toList, "/Value".toList]

def sizesTags : List Str :=
  ["dmrpp:chunkDimensionSizes".toList, "/dmrpp:chunkDimensionSizes".toList]

structure Chunk where
  attrs : Str
  after : Str
  attrs_lt : '<' ∉ attrs
  attrs_close : ¬ closeMark <:+: attrs
  after_all : ∀ c ∈ after, IsSpace c

def Chunk.segment (chunk : Chunk) (extra : Str) : Str :=
  chunkLineMark ++ chunk.attrs ++ extra ++ closeMark ++ chunk.after

structure ChunksElement where
  head : Str
  sizes : List Str
  first : Chunk
  more : List Chunk
  head_lt : '<' ∉ head
  sizes_tags : ∀ s ∈ sizes, OfTags sizesTags s
  head_close : ¬ closeMark <:+: head ++ join '<' sizes

def ChunksElement.chunks (element : ChunksElement) : List Chunk := element.first :: element.more

def ChunksElement.segments (element : ChunksElement) (extra : Str) : List Str :=
  (chunksMark ++ element.head) :: element.sizes ++ element.chunks.map (·.segment extra)

structure SingleElement where
  attrs : Str
  attrs_lt : '<' ∉ attrs
  attrs_close : ¬ closeMark <:+: attrs

inductive Storage
  | chunks (element : ChunksElement)
  | single (element : SingleElement)

def Storage.segments (storage : Storage) (extra after : Str) : List Str :=
  match storage with
  | .chunks element => element.segments extra ++ [chunksEndMark ++ after]
  | .single element => [chunkMark ++ element.attrs ++ extra ++ closeMark ++ after]

def Storage.text (storage : Storage) (extra : Str) : Str := join '<' (storage.segments extra [])

def Storage.isSingle : Storage → Bool
  | .chunks _ => false
  | .single _ => true

structure Variable where
  type : VarType
  name : Str
  start : Str
  children : List Str
  storage : Storage
  after : Str
  behind : Str
  name_quote : '"' ∉ name
  name_lt : '<' ∉ name
  start_lt : '<' ∉ start
  children_tags : ∀ s ∈ children, OfTags childTags s
  after_lt : '<' ∉ after
  behind_lt : '<' ∉ behind
  no_href : ¬ "href".toList <:+: storage.text []

namespace Variable

def startSegment (v : Variable) : Str := varMark v.type ++ v.name ++ '"' :: v.start

def endSegment (v : Variable) : Str := endMark v.type ++ v.behind

def openSegments (v : Variable) : List Str :=
  v.startSegment :: v.children ++ v.storage.segments [] v.after

def segments (v : Variable) : List Str := v.openSegments ++ [v.endSegment]

def lead (v : Variable) : Str := '"' :: v.start ++ join '<' v.children

def blanks (v : Variable) : Str := v.lead.rtakeWhile (· = ' ')

def chunkInfo (v : Variable) (extra : Str) : Str := v.blanks ++ v.storage.text extra

def info (v : Variable) : VarInfo := ⟨v.type, v.name, v.chunkInfo []⟩

end Variable

structure Supplement where
  plain : Str
  header : List Str
  vars : List Variable
  trailer : List Str
  plain_lt : '<' ∉ plain
  header_tags : ∀ s ∈ header, OfTags outerTags s
  trailer_tags : ∀ s ∈ trailer, OfTags outerTags s

def Supplement.text (doc : Supplement) : Str :=
  doc.plain ++ join '<' (doc.header ++ (doc.vars.flatMap Variable.segments ++ doc.trailer))

def SameButSpace (text other : Str) : Prop :=
  text.filter (fun c => !decide (IsSpace c)) = other.filter (fun c => !decide (IsSpace c))

/-- Every variable is listed once with its own chunk information, and every chunk gets the address. -/
def Merges (doc : Supplement) (isMark1 : Bool) (faddrSource : Str) : Prop :=
  ∃ mark1, obtainVarInfo doc.text isMark1 = ⟨true, doc.vars.map Variable.info, mark1⟩ ∧
    ∃ named infos, addFaddrChunkInfo doc.text (doc.vars.map (·.chunkInfo [])) mark1 faddrSource =
        some (named, infos) ∧
      Forall₂ (fun v info => SameButSpace info (v.chunkInfo (href faddrSource))) doc.vars infos

/-- No single chunk has a `/>` between the name of its variable and itself, none is followed by a
variable with `dmrpp:chunks`, and where there is one, every `dmrpp:chunks` has one chunk. -/
structure Mergeable (doc : Supplement) : Prop where
  text_ne : doc.text ≠ []
  lead_close : ∀ v ∈ doc.vars, v.storage.isSingle = true → ¬ closeMark <:+: v.lead
  order : doc.vars.Pairwise fun v w => v.storage.isSingle = true → w.storage.isSingle = true
  one_chunk : (∃ v ∈ doc.vars, v.storage.isSingle = true) →
    ∀ v ∈ doc.vars, ∀ element, v.storage = .chunks element → element.more = []

/-! The marks are told apart by their first two characters, and the marks of chunks among themselves. -/

def HasKey (keys : List Str) (text : Str) : Prop := ∃ key ∈ keys, key <+: text

instance (keys : List Str) (text : Str) : Decidable (HasKey keys text) :=
  inferInstanceAs (Decidable (∃ key ∈ keys, key <+: text))

def varKeys : List Str := [['F', 'l'], ['I', 'n'], ['B', 'y'], ['U', 'I'], ['S', 't'], ['C', 'h']]

def endKeys : List Str := [['/', 'F'], ['/', 'I'], ['/', 'B'], ['/', 'U'], ['/', 'S'], ['/', 'C']]

def otherKeys : List Str :=
  [['D', 'i'], ['A', 't'], ['M', 'a'], ['V', 'a'], ['?', 'x'], ['D', 'a'], ['/', 'D'], ['/', 'A'],
    ['/', 'M'], ['/', 'V']]

def chunkKeys : List Str := [['d', 'm'], ['/', 'd']]

theorem HasKey.mono {keys : List Str} {text longer : Str} (h : HasKey keys text)
    (hlon : text <+: longer) : HasKey keys longer := by
  obtain ⟨key, hkey, hpre⟩ := h
  exact ⟨key, hkey, hpre.trans hlon⟩

def Disjoint (keys others : List Str) : Prop :=
  ∀ key ∈ keys, ∀ other ∈ others, key.length = other.length ∧ key ≠ other

instance (keys others : List Str) : Decidable (Disjoint keys others) :=
  inferInstanceAs (Decidable (∀ key ∈ keys, ∀ other ∈ others, key.length = other.length ∧ key ≠ other))

theorem HasKey.excludes {keys others : List Str} (hdis : Disjoint keys others) {mark text : Str}
    (hmarked : HasKey keys mark) (htext : HasKey others text) : ¬ mark <+: text := by
  intro hpre
  obtain ⟨key, hkey, hkem⟩ := hmarked
  obtain ⟨other, hother, hote⟩ := htext
  obtain ⟨hlen, hne⟩ := hdis key hkey other hother
  have hsame := prefix_of_prefix_length_le (hkem.trans hpre) hote hlen.le
  exact hne (hsame.eq_of_length hlen)

theorem hasKey_varMark (type : VarType) : HasKey varKeys (varMark type) := by
  cases type <;> decide

theorem hasKey_endMark (type : VarType) : HasKey endKeys (endMark type) := by
  cases type <;> decide

theorem hasKey_chunkMarks :
    ∀ mark ∈ [chunksMark, chunksEndMark, chunkMark, chunkLineMark], HasKey chunkKeys mark := by
  decide

theorem OfTags.hasKey {tags keys : List Str} {segment : Str} (h : OfTags tags segment)
    (hkys : ∀ tag ∈ tags, HasKey keys tag) : HasKey keys segment := by
  obtain ⟨tag, htag, hpre⟩ := h.2
  exact (hkys tag htag).mono hpre

theorem hasKey_childTags : ∀ tag ∈ childTags, HasKey otherKeys tag := by
  decide

theorem hasKey_outerTags : ∀ tag ∈ outerTags, HasKey otherKeys tag := by
  decide

theorem hasKey_sizesTags : ∀ tag ∈ sizesTags, HasKey chunkKeys tag := by
  decide

theorem not_prefix_of_apart (htag : tag <+: text) (hmarked : ¬ mark <+: tag)
    (hlon : ¬ tag <+: mark) : ¬ mark <+: text := by
  intro hpre
  cases prefix_or_prefix_of_prefix hpre htag with
  | inl hfirst => exact hmarked hfirst
  | inr hsecond => exact hlon hsecond

theorem name_notMem_blank (type : VarType) : ' ' ∉ type.name := by
  cases type <;> decide

theorem name_injective {other : VarType} (h : type.name = other.name) : type = other := by
  have hnod : (varTypeList.map VarType.name).Nodup := by
    decide +kernel
  have hmem : ∀ type : VarType, type ∈ varTypeList := by
    intro type
    cases type <;> decide
  exact inj_on_of_nodup_map hnod (hmem type) (hmem other) h

theorem takeWhile_varMark (h : varMark type <+: text) : text.takeWhile (· ≠ ' ') = type.name := by
  obtain ⟨rest, rfl⟩ := h
  have hmarked : varMark type ++ rest = type.name ++ ' ' :: ("name=\"".toList ++ rest) := by
    unfold varMark
    rw [append_assoc]
    rfl
  have hnam : ∀ c ∈ type.name, decide (c ≠ ' ') = true := by
    intro c hc
    rw [decide_eq_true_iff]
    intro hbla
    exact name_notMem_blank type (hbla ▸ hc)
  rw [hmarked, takeWhile_append_of_pos hnam, takeWhile_cons_of_neg (by simp), append_nil]

theorem varMark_unique (h : varMark type <+: text) (hother : varMark other <+: text) : type = other :=
  name_injective ((takeWhile_varMark h).symm.trans (takeWhile_varMark hother))

/-! The segments have no `<`. -/

theorem lt_notMem_varMark (type : VarType) : '<' ∉ varMark type := by
  cases type <;> decide

theorem lt_notMem_endMark (type : VarType) : '<' ∉ endMark type := by
  cases type <;> decide

theorem lt_notMem_marks :
    ∀ mark ∈ [chunksMark, chunksEndMark, chunkMark, chunkLineMark, closeMark], '<' ∉ mark := by
  decide

theorem lt_notMem_of_isSpace {text : Str} (h : ∀ c ∈ text, IsSpace c) : '<' ∉ text := by
  intro hmem
  exact absurd (h '<' hmem) (by decide)

theorem Chunk.lt_notMem (chunk : Chunk) (hext : '<' ∉ extra) : '<' ∉ chunk.segment extra := by
  unfold Chunk.segment
  simp only [mem_append, not_or]
  exact ⟨⟨⟨⟨lt_notMem_marks _ (by simp), chunk.attrs_lt⟩, hext⟩, lt_notMem_marks _ (by simp)⟩,
    lt_notMem_of_isSpace chunk.after_all⟩

theorem ChunksElement.lt_notMem (element : ChunksElement) (hext : '<' ∉ extra) :
    ∀ s ∈ element.segments extra, '<' ∉ s := by
  intro s hs
  unfold ChunksElement.segments at hs
  rw [cons_append, mem_cons, mem_append, mem_map] at hs
  obtain rfl | hsize | ⟨chunk, -, rfl⟩ := hs
  · rw [mem_append, not_or]
    exact ⟨lt_notMem_marks _ (by simp), element.head_lt⟩
  · exact (element.sizes_tags s hsize).1
  · exact chunk.lt_notMem hext

theorem Storage.lt_notMem (storage : Storage) {after : Str} (hafter : '<' ∉ after) :
    ∀ s ∈ storage.segments [] after, '<' ∉ s := by
  intro s hs
  cases storage with
  | chunks element =>
    rw [Storage.segments, mem_append, mem_singleton] at hs
    cases hs with
    | inl hopen => exact element.lt_notMem (by simp) s hopen
    | inr hend =>
      rw [hend, mem_append, not_or]
      exact ⟨lt_notMem_marks _ (by simp), hafter⟩
  | single element =>
    rw [Storage.segments, mem_singleton] at hs
    rw [hs]
    simp only [mem_append, not_or, append_nil]
    exact ⟨⟨⟨lt_notMem_marks _ (by simp), element.attrs_lt⟩, lt_notMem_marks _ (by simp)⟩, hafter⟩

namespace Variable

variable (v : Variable)

theorem lt_notMem_startSegment : '<' ∉ v.startSegment := by
  unfold startSegment
  simp only [mem_append, mem_cons, not_or]
  exact ⟨⟨lt_notMem_varMark v.type, v.name_lt⟩, by decide, v.start_lt⟩

theorem lt_notMem_endSegment : '<' ∉ v.endSegment := by
  unfold endSegment
  rw [mem_append, not_or]
  exact ⟨lt_notMem_endMark v.type, v.behind_lt⟩

theorem lt_notMem_segments : ∀ s ∈ v.segments, '<' ∉ s := by
  intro s hs
  unfold segments openSegments at hs
  simp only [cons_append, mem_cons, mem_append, not_mem_nil, or_false] at hs
  obtain rfl | (hchi | hstored) | rfl := hs
  · exact v.lt_notMem_startSegment
  · exact (v.children_tags s hchi).1
  · exact v.storage.lt_notMem v.after_lt s hstored
  · exact v.lt_notMem_endSegment

end Variable

theorem not_varMark_of_outer (type : VarType) {s : Str} (h : OfTags outerTags s) :
    '<' ∉ s ∧ ¬ varMark type <+: s :=
  ⟨h.1, (hasKey_varMark type).excludes (by decide) (h.hasKey hasKey_outerTags)⟩

theorem nextVar_eq_of_first {p : Nat} (hfound : find str ('<' :: varMark type) strPos = some p)
    (hote : ∀ other, other ≠ type → ∀ q, find str ('<' :: varMark other) strPos = some q → p < q) :
    nextVar str strPos = some (p, type) := by
  obtain ⟨hfrm, hlea⟩ := nextVar_spec str strPos
  obtain ⟨q, other, hnext, hle⟩ := hlea p type hfound
  have hother := hfrm q other hnext
  grind

theorem nextVar_eq {before plain : Str} {skip tail : List Str} {v : Variable} (hplace : '<' ∉ plain)
    (hskp : ∀ s ∈ skip, OfTags outerTags s) :
    nextVar (before ++ (plain ++ join '<' (skip ++ v.startSegment :: tail))) before.length =
      some (before.length + (plain.length + (join '<' skip).length), v.type) := by
  have hsta : varMark v.type <+: v.startSegment := by
    unfold Variable.startSegment
    rw [append_assoc]
    exact prefix_append ..
  apply nextVar_eq_of_first
  · rw [find_append_length, firstAt_markup (lt_notMem_varMark v.type) hplace
      (fun s hs => not_varMark_of_outer v.type (hskp s hs)) hsta]
    rfl
  · intro other hother q hq
    have hsgm : ∀ s ∈ skip ++ [v.startSegment], '<' ∉ s ∧ ¬ varMark other <+: s := by
      intro s hs
      cases mem_append.mp hs with
      | inl hmem => exact not_varMark_of_outer other (hskp s hmem)
      | inr hmem =>
        rw [mem_singleton.mp hmem]
        exact ⟨v.lt_notMem_startSegment, fun hpre => hother (varMark_unique hpre hsta)⟩
    have hcut : skip ++ v.startSegment :: tail = skip ++ [v.startSegment] ++ tail := by
      simp
    rw [find_append_length, firstAt_plain hplace, hcut, firstAt_join (lt_notMem_varMark other) hsgm,
      join_append] at hq
    simp only [Option.map_map, Option.map_eq_some_iff, Function.comp_apply, length_append] at hq
    obtain ⟨r, -, rfl⟩ := hq
    simp only [join_cons, length_cons]
    omega

theorem nextVar_none (hplace : '<' ∉ plain) (hsgm : ∀ s ∈ segments, OfTags outerTags s) :
    nextVar (before ++ (plain ++ join '<' segments)) before.length = none := by
  refine Option.eq_none_iff_forall_ne_some.mpr fun (p, type) hnext => ?_
  have hfound := (nextVar_spec _ _).1 p type hnext
  rw [find_append_length, firstAt_markup_none (lt_notMem_varMark type) hplace
    fun s hs => not_varMark_of_outer type (hsgm s hs)] at hfound
  cases hfound

theorem hasKey_storage (storage : Storage) (extra after : Str) :
    ∀ s ∈ storage.segments extra after, HasKey chunkKeys s := by
  intro s hs
  cases storage with
  | chunks element =>
    simp only [Storage.segments, ChunksElement.segments, cons_append, mem_cons,
      mem_append, mem_map, not_mem_nil, or_false] at hs
    obtain rfl | (hsize | ⟨chunk, -, rfl⟩) | rfl := hs
    · exact (hasKey_chunkMarks chunksMark (by simp)).mono (prefix_append ..)
    · exact (element.sizes_tags s hsize).hasKey hasKey_sizesTags
    · refine (hasKey_chunkMarks chunkLineMark (by simp)).mono ?_
      simp [Chunk.segment, append_assoc]
    · exact (hasKey_chunkMarks chunksEndMark (by simp)).mono (prefix_append ..)
  | single element =>
    rw [Storage.segments, mem_singleton] at hs
    rw [hs]
    refine (hasKey_chunkMarks chunkMark (by simp)).mono ?_
    simp [append_assoc]

theorem ChunksElement.not_endMark (element : ChunksElement) :
    ∀ s ∈ element.segments [], ¬ chunksEndMark <+: s := by
  have happ : ∀ tag ∈ chunksMark :: chunkLineMark :: sizesTags,
      ¬ chunksEndMark <+: tag ∧ ¬ tag <+: chunksEndMark := by
    decide
  intro s hs
  simp only [ChunksElement.segments, cons_append, mem_cons, mem_append, mem_map] at hs
  obtain rfl | hsize | ⟨chunk, -, rfl⟩ := hs
  · have hmarked := happ chunksMark (by simp)
    exact not_prefix_of_apart (prefix_append ..) hmarked.1 hmarked.2
  · obtain ⟨tag, htag, hpre⟩ := (element.sizes_tags s hsize).2
    have hmarked := happ tag (mem_cons_of_mem _ (mem_cons_of_mem _ htag))
    exact not_prefix_of_apart hpre hmarked.1 hmarked.2
  · have hmarked := happ chunkLineMark (by simp)
    refine not_prefix_of_apart ?_ hmarked.1 hmarked.2
    simp [Chunk.segment, append_assoc]

theorem ChunksElement.not_chunkLineMark (element : ChunksElement) :
    ∀ s ∈ (chunksMark ++ element.head) :: element.sizes, ¬ chunkLineMark <+: s := by
  have happ : ∀ tag ∈ chunksMark :: sizesTags, ¬ chunkLineMark <+: tag ∧ ¬ tag <+: chunkLineMark := by
    decide
  intro s hs
  cases mem_cons.mp hs with
  | inl heq =>
    have hmarked := happ chunksMark (by simp)
    rw [heq]
    exact not_prefix_of_apart (prefix_append ..) hmarked.1 hmarked.2
  | inr hsize =>
    obtain ⟨tag, htag, hpre⟩ := (element.sizes_tags s hsize).2
    have hmarked := happ tag (mem_cons_of_mem _ htag)
    exact not_prefix_of_apart hpre hmarked.1 hmarked.2

theorem Variable.hasKey_children (v : Variable) : ∀ s ∈ v.children, HasKey otherKeys s := by
  intro s hs
  exact (v.children_tags s hs).hasKey hasKey_childTags

theorem Variable.not_mark_of_child (v : Variable) {mark : Str} (hmarked : HasKey chunkKeys mark) :
    ∀ s ∈ v.children, '<' ∉ s ∧ ¬ mark <+: s := by
  intro s hs
  exact ⟨(v.children_tags s hs).1, hmarked.excludes (by decide) (v.hasKey_children s hs)⟩

section

variable (v : Variable)

def Variable.stem (v : Variable) : Str := v.lead.rdropWhile (· = ' ')

theorem Variable.stem_append_blanks : v.stem ++ v.blanks = v.lead := by
  unfold stem blanks rdropWhile rtakeWhile
  rw [← reverse_append, takeWhile_append_dropWhile, reverse_reverse]

theorem Variable.blanks_all : ∀ c ∈ v.blanks, c = ' ' := by
  intro c hc
  have hmem := mem_takeWhile_imp (mem_reverse.mp hc)
  exact of_decide_eq_true hmem

theorem rdropWhile_front_lead (front : Str) :
    (front ++ v.lead).rdropWhile (· = ' ') = front ++ v.stem := by
  have hne : v.stem ≠ [] := by
    intro hnil
    have hall := rdropWhile_eq_nil_iff.mp hnil '"' mem_cons_self
    exact absurd (of_decide_eq_true hall) (by decide)
  have hdrop : (v.lead.reverse.dropWhile (· = ' ')).isEmpty = false := by
    rw [isEmpty_eq_false_iff]
    intro hnil
    apply hne
    unfold Variable.stem rdropWhile
    rw [hnil]
    rfl
  unfold Variable.stem rdropWhile
  rw [reverse_append, dropWhile_append, hdrop]
  simp

theorem afterLastNotBlank_lead (front rest : Str) :
    afterLastNotBlank (front ++ (v.lead ++ rest)) (some (front.length + v.lead.length)) =
      front.length + v.stem.length := by
  have hscc : front.length + v.lead.length =
      (front.length + (v.start ++ join '<' v.children).length) + 1 := rfl
  have htake : (front ++ (v.lead ++ rest)).take (front.length + v.lead.length) = front ++ v.lead := by
    rw [← append_assoc, ← length_append, take_left]
  unfold afterLastNotBlank
  rw [hscc]
  dsimp only
  rw [← hscc, htake, rdropWhile_front_lead, length_append]

end

section

variable (v : Variable) (front : Str) (tail : List Str)

def Variable.fromStorage (v : Variable) (tail : List Str) : List Str :=
  v.storage.segments [] v.after ++ v.endSegment :: tail

def Variable.fromName (v : Variable) (tail : List Str) : Str :=
  '"' :: v.start ++ join '<' (v.children ++ v.fromStorage tail)

def Variable.openLength (v : Variable) : Nat :=
  v.lead.length + (join '<' (v.storage.segments [] v.after)).length

theorem Variable.lt_notMem_start : '<' ∉ '"' :: v.start := by
  rw [mem_cons, not_or]
  exact ⟨by decide, v.start_lt⟩

theorem Variable.length_lead :
    v.lead.length = ('"' :: v.start).length + (join '<' v.children).length := by
  unfold lead
  rw [length_append]

theorem Variable.fromName_eq : v.fromName tail = v.lead ++ join '<' (v.fromStorage tail) := by
  unfold fromName lead
  rw [join_append, append_assoc]

variable {v front tail}

theorem find_fromName {mark : Str} (hmarked : '<' ∉ mark)
    (hchl : ∀ s ∈ v.children, '<' ∉ s ∧ ¬ mark <+: s) {before after : List Str} {segment : Str}
    (hsplit : v.fromStorage tail = before ++ segment :: after)
    (hbefore : ∀ s ∈ before, '<' ∉ s ∧ ¬ mark <+: s) (hseg : mark <+: segment) :
    find (front ++ v.fromName tail) ('<' :: mark) front.length =
      some (front.length + (v.lead.length + (join '<' before).length)) := by
  have hall : ∀ s ∈ v.children ++ before, '<' ∉ s ∧ ¬ mark <+: s :=
    forall_mem_append.mpr ⟨hchl, hbefore⟩
  unfold Variable.fromName
  rw [hsplit, ← append_assoc v.children, find_append_length,
    firstAt_markup hmarked v.lt_notMem_start hall hseg, join_append, length_append, v.length_lead,
    add_assoc]
  rfl

theorem le_of_find_fromName (hmarked : '<' ∉ mark) (hchl : ∀ s ∈ v.children, '<' ∉ s ∧ ¬ mark <+: s)
    (hstored : ∀ s ∈ v.storage.segments [] v.after, '<' ∉ s ∧ ¬ mark <+: s) {p : Nat}
    (hfound : find (front ++ v.fromName tail) ('<' :: mark) front.length = some p) :
    front.length + v.openLength ≤ p := by
  have hall : ∀ s ∈ v.children ++ v.storage.segments [] v.after, '<' ∉ s ∧ ¬ mark <+: s :=
    forall_mem_append.mpr ⟨hchl, hstored⟩
  unfold Variable.fromName Variable.fromStorage at hfound
  rw [← append_assoc v.children, find_append_length, firstAt_plain v.lt_notMem_start,
    firstAt_join hmarked hall, join_append, length_append] at hfound
  simp only [Option.map_map, Option.map_eq_some_iff, Function.comp_apply] at hfound
  rw [Variable.openLength, v.length_lead]
  omega

theorem infix_fromName {mark segment : Str}
    (hmem : segment ∈ v.fromStorage tail) (hmarked : mark <+: segment) :
    '<' :: mark <:+: v.fromName tail := by
  obtain ⟨first, second, hsplit⟩ := append_of_mem hmem
  have hseg : '<' :: mark <+: '<' :: (segment ++ join '<' second) :=
    cons_prefix_cons.mpr ⟨rfl, hmarked.trans (prefix_append ..)⟩
  rw [v.fromName_eq, hsplit, join_append, join_cons, ← append_assoc]
  exact hseg.isInfix.trans (suffix_append ..).isInfix

theorem find_endMark : find (front ++ v.fromName tail) ('<' :: endMark v.type) front.length =
      some (front.length + v.openLength) := by
  apply find_fromName (lt_notMem_endMark v.type) _ rfl
  · intro s hs
    exact ⟨v.storage.lt_notMem v.after_lt s hs,
      (hasKey_endMark v.type).excludes (by decide) (hasKey_storage v.storage [] v.after s hs)⟩
  · exact prefix_append ..
  · intro s hs
    exact ⟨(v.children_tags s hs).1,
      (hasKey_endMark v.type).excludes (by decide) (v.hasKey_children s hs)⟩

theorem find_chunkMark (front : Str) {mark : Str}
    (hmarked : mark ∈ [chunksMark, chunksEndMark, chunkMark, chunkLineMark])
    {before after : List Str} {segment : Str} (hsplit : v.fromStorage tail = before ++ segment :: after)
    (hbefore : ∀ s ∈ before, '<' ∉ s ∧ ¬ mark <+: s) (hseg : mark <+: segment) :
    find (front ++ v.fromName tail) ('<' :: mark) front.length =
      some (front.length + (v.lead.length + (join '<' before).length)) :=
  find_fromName (lt_notMem_marks mark (mem_append_left [closeMark] hmarked)) (v.not_mark_of_child (hasKey_chunkMarks mark hmarked))
    hsplit hbefore hseg

theorem findChunkInfo_chunks (front : Str) (tail : List Str) {element : ChunksElement}
    (hstored : v.storage = .chunks element) (oldStop : Option Nat) :
    findChunkInfo (front ++ v.fromName tail) front.length oldStop = ⟨front.length + v.stem.length,
        some (front.length + (v.lead.length + (join '<' (element.segments [])).length)), true⟩ := by
  have hsplit : v.fromStorage tail = [] ++ (chunksMark ++ element.head) :: (element.sizes ++
      element.chunks.map (·.segment []) ++ (chunksEndMark ++ v.after) :: v.endSegment :: tail) := by
    simp [Variable.fromStorage, hstored, Storage.segments, ChunksElement.segments]
  have hsta := find_chunkMark front (by simp) hsplit (forall_mem_nil _) (prefix_append ..)
  have hspi : v.fromStorage tail =
      element.segments [] ++ (chunksEndMark ++ v.after) :: v.endSegment :: tail := by
    simp [Variable.fromStorage, hstored, Storage.segments]
  have hstp := find_chunkMark front (by simp) hspi
    (fun s hs => ⟨element.lt_notMem (by simp) s hs, element.not_endMark s hs⟩) (prefix_append ..)
  unfold findChunkInfo
  rw [hsta]
  rw [hstp, v.fromName_eq]
  exact congrArg (ChunkSpan.mk · _ true) (afterLastNotBlank_lead v front _)

theorem drop_stem : (front ++ v.fromName tail).drop (front.length + v.stem.length) =
      v.blanks ++ join '<' (v.fromStorage tail) := by
  have hsplit : front ++ v.fromName tail = (front ++ v.stem) ++
      (v.blanks ++ join '<' (v.fromStorage tail)) := by
    rw [v.fromName_eq, ← v.stem_append_blanks, append_assoc, append_assoc]
  rw [hsplit, ← length_append, drop_left]

theorem Variable.length_stem_le (v : Variable) : v.stem.length ≤ v.lead.length := by
  rw [← v.stem_append_blanks, length_append]
  exact Nat.le_add_right ..

theorem chunkText_of_span (mark1 : Bool) (hpart : join '<' (v.fromStorage tail) = part ++ rest) :
    chunkText (front ++ v.fromName tail)
        ⟨front.length + v.stem.length, some (front.length + (v.lead.length + part.length)), mark1⟩ =
      v.blanks ++ part ++ (if mark1 then '<' :: chunksEndMark else closeMark) := by
  have hle := v.length_stem_le
  have hlen : front.length + (v.lead.length + part.length) - (front.length + v.stem.length) =
      (v.blanks ++ part).length := by
    have hled := congrArg length v.stem_append_blanks
    rw [length_append] at hled ⊢
    omega
  unfold chunkText
  dsimp only [Option.getD_some]
  rw [if_pos (by omega), drop_stem, hlen, hpart, ← append_assoc, take_left]

theorem chunkText_chunks (hstored : v.storage = .chunks element) : chunkText (front ++ v.fromName tail)
        ⟨front.length + v.stem.length,
          some (front.length + (v.lead.length + (join '<' (element.segments [])).length)), true⟩ =
      v.chunkInfo [] := by
  have hpart : join '<' (v.fromStorage tail) =
      join '<' (element.segments []) ++ join '<' ((chunksEndMark ++ v.after) :: v.endSegment :: tail) := by
    rw [Variable.fromStorage, hstored, Storage.segments, append_assoc, join_append]
    rfl
  rw [chunkText_of_span true hpart, if_pos rfl, append_assoc, Variable.chunkInfo, hstored,
    Storage.text, Storage.segments, join_append]
  rfl

variable {element : SingleElement}

theorem not_chunksMark_single (hstored : v.storage = .single element) : ∀ s ∈ v.storage.segments [] v.after,
      ('<' ∉ s ∧ ¬ chunksMark <+: s) ∧ '<' ∉ s ∧ ¬ chunksEndMark <+: s := by
  have happ : ∀ mark ∈ [chunksMark, chunksEndMark], ¬ mark <+: chunkMark ∧ ¬ chunkMark <+: mark := by
    decide
  intro s hs
  have hlt := v.storage.lt_notMem v.after_lt s hs
  rw [hstored, Storage.segments, mem_singleton] at hs
  have hpre : chunkMark <+: s := by
    rw [hs]
    simp [append_assoc]
  have hchunk := happ chunksMark (by simp)
  have hend := happ chunksEndMark (by simp)
  exact ⟨⟨hlt, not_prefix_of_apart hpre hchunk.1 hchunk.2⟩, hlt, not_prefix_of_apart hpre hend.1 hend.2⟩

theorem endSegment_not_chunksMark : '<' ∉ v.endSegment ∧ ¬ chunksMark <+: v.endSegment := by
  refine ⟨v.lt_notMem_endSegment, ?_⟩
  have hkey : HasKey endKeys v.endSegment := (hasKey_endMark v.type).mono (prefix_append ..)
  exact (hasKey_chunkMarks chunksMark (by simp)).excludes (by decide) hkey

theorem findChunkInfo_single (front : Str) (hstored : v.storage = .single element)
    (htail : ∀ s ∈ tail, '<' ∉ s ∧ ¬ chunksMark <+: s) (oldStop : Option Nat) :
    findChunkInfo (front ++ v.fromName tail) front.length oldStop =
      ⟨front.length + v.stem.length, find (front ++ v.fromName tail) closeMark front.length, false⟩ := by
  have hnone : find (front ++ v.fromName tail) ('<' :: chunksMark) front.length = none := by
    unfold Variable.fromName
    rw [find_append_length, firstAt_markup_none (lt_notMem_marks _ (by simp)) v.lt_notMem_start]
    · rfl
    · intro s hs
      rw [Variable.fromStorage, mem_append, mem_append, mem_cons] at hs
      obtain hchi | hseg | rfl | hmem := hs
      · exact v.not_mark_of_child (hasKey_chunkMarks _ (by simp)) s hchi
      · exact (not_chunksMark_single hstored s hseg).1
      · exact endSegment_not_chunksMark
      · exact htail s hmem
  have hsplit : v.fromStorage tail =
      [] ++ (chunkMark ++ (element.attrs ++ closeMark ++ v.after)) :: v.endSegment :: tail := by
    simp [Variable.fromStorage, hstored, Storage.segments]
  have hsta := find_chunkMark front (by simp) hsplit (forall_mem_nil _) (prefix_append ..)
  unfold findChunkInfo
  rw [hnone]
  dsimp only
  rw [hsta, Option.isSome_some, if_pos rfl, v.fromName_eq]
  exact congrArg (ChunkSpan.mk · _ false) (afterLastNotBlank_lead v front _)

def singleFront (element : SingleElement) : Str := '<' :: chunkMark ++ element.attrs

theorem closeMark_not_infix_mark (hmarked : mark ∈ [chunksMark, chunkMark, chunkLineMark]) (hfirst : ¬ closeMark <:+: first) (hrest : ¬ closeMark <:+: rest) :
    ¬ closeMark <:+: first ++ '<' :: (mark ++ rest) := by
  have hmar : ∀ mark ∈ [chunksMark, chunkMark, chunkLineMark],
      mark.all (fun c => decide (c ∉ closeMark)) = true := by
    decide
  have hcha : ∀ c ∈ mark, c ∉ closeMark := by
    intro c hc
    exact of_decide_eq_true (all_eq_true.mp (hmar mark hmarked) c hc)
  intro h
  cases infix_append_cons (by decide) h with
  | inl hbefore => exact hfirst hbefore
  | inr hmore => exact hrest (infix_of_infix_append (cons_ne_nil _ _) hcha hmore)

theorem closeMark_not_infix_singleFront (element : SingleElement)
    (hfirst : ¬ closeMark <:+: first) : ¬ closeMark <:+: first ++ singleFront element :=
  closeMark_not_infix_mark (by simp) hfirst element.attrs_close

theorem join_single (hstored : v.storage = .single element) : join '<' (v.fromStorage tail) =
      singleFront element ++ (closeMark ++ (v.after ++ join '<' (v.endSegment :: tail))) := by
  simp [Variable.fromStorage, hstored, Storage.segments, singleFront, join]

theorem find_close_single (hstored : v.storage = .single element) (hled : ¬ closeMark <:+: v.lead) :
    find (front ++ v.fromName tail) closeMark front.length =
      some (front.length + (v.lead.length + (singleFront element).length)) := by
  have hfirst : firstAt closeMark (v.lead ++ singleFront element ++
      (closeMark ++ (v.after ++ join '<' (v.endSegment :: tail)))) =
      some (v.lead ++ singleFront element).length :=
    firstAt_pair (by decide) (closeMark_not_infix_singleFront element hled) _
  rw [find_append_length, v.fromName_eq, join_single hstored, ← append_assoc, hfirst, length_append]
  rfl

theorem find_close_lead (front : Str) (tail : List Str) (hled : closeMark <:+: v.lead) :
    ∃ p, find (front ++ v.fromName tail) closeMark front.length = some p ∧
      p < front.length + v.stem.length := by
  have hstm : closeMark <:+: v.stem := by
    rw [← v.stem_append_blanks] at hled
    have hall := v.blanks_all
    cases hbln : v.blanks with
    | nil => rwa [hbln, append_nil] at hled
    | cons c blanks =>
      rw [hbln] at hled hall
      obtain ⟨rfl, hrest⟩ := forall_mem_cons.mp hall
      cases infix_append_cons (by decide) hled with
      | inl hinside => exact hinside
      | inr hbla =>
        have hslash : '/' = ' ' := hrest '/' (hbla.subset (by decide))
        exact absurd hslash (by decide)
  obtain ⟨p, hp, hle⟩ := exists_firstAt_of_infix hstm (v.blanks ++ join '<' (v.fromStorage tail))
  refine ⟨front.length + p, ?_, ?_⟩
  · rw [find_append_length, v.fromName_eq, ← v.stem_append_blanks, append_assoc, hp]
    rfl
  · have htwo : closeMark.length = 2 := rfl
    omega

theorem chunkText_single (hstored : v.storage = .single element) : chunkText (front ++ v.fromName tail)
        ⟨front.length + v.stem.length,
          some (front.length + (v.lead.length + (singleFront element).length)), false⟩ =
      v.chunkInfo [] := by
  rw [chunkText_of_span false (join_single hstored), Variable.chunkInfo, hstored, append_assoc]
  simp [Storage.text, Storage.segments, singleFront, join]

theorem chunkText_wrapped (hstored : v.storage = .single element) {p : Nat}
    (hp : p < front.length + v.stem.length) :
    chunkText (front ++ v.fromName tail) ⟨front.length + v.stem.length, some p, false⟩ ≠
      v.chunkInfo [] := by
  intro heq
  have hlen := congrArg length heq
  unfold chunkText at hlen
  dsimp only [Option.getD_some] at hlen
  rw [if_neg (by omega), drop_stem, join_single hstored, Variable.chunkInfo, hstored] at hlen
  simp [Storage.text, Storage.segments, singleFront, join, length_append] at hlen

def upToName (before plain : Str) (skip : List Str) (v : Variable) : Str :=
  before ++ (plain ++ (join '<' skip ++ '<' :: varMark v.type))

variable {before plain : Str}

theorem text_eq_upToName : before ++ (plain ++ join '<' (skip ++ (v.segments ++ tail))) =
      upToName before plain skip v ++ v.name ++ v.fromName tail := by
  simp [upToName, Variable.segments, Variable.openSegments, Variable.startSegment, Variable.fromName,
    Variable.fromStorage, join_append, join_cons]

structure NextIs (str : Str) (strPos : Nat) (front : Str) (v : Variable) (tail : List Str) : Prop where
  text : str = front ++ v.fromName tail
  name : ∃ upTo p, front = upTo ++ v.name ∧ nextVar str strPos = some (p, v.type) ∧
    p + (varMark v.type).length + 1 = upTo.length

variable {str : Str}

theorem nextIs_upToName (hstr : str = before ++ (plain ++ join '<' (skip ++ (v.segments ++ tail))))
    (hplace : '<' ∉ plain) (hskp : ∀ s ∈ skip, OfTags outerTags s) :
    NextIs str before.length (upToName before plain skip v ++ v.name) v tail := by
  have hcut : skip ++ (v.segments ++ tail) = skip ++ v.startSegment ::
      (v.children ++ v.storage.segments [] v.after ++ [v.endSegment] ++ tail) := by
    simp [Variable.segments, Variable.openSegments]
  have hvar : nextVar str before.length =
      some (before.length + (plain.length + (join '<' skip).length), v.type) := by
    rw [hstr, hcut]
    exact nextVar_eq hplace hskp
  refine ⟨hstr.trans text_eq_upToName, upToName before plain skip v, _, rfl, hvar, ?_⟩
  simp only [upToName, length_append, length_cons]
  omega

section

variable (hnext : NextIs str strPos front v tail) (oldStop : Option Nat) (mark1 : Bool)

include hnext

theorem obtainStep_eq {span : ChunkSpan}
    (hspn : findChunkInfo (front ++ v.fromName tail) front.length oldStop = span) :
    obtainStep str strPos oldStop mark1 =
      if span.endsBefore (front.length + v.openLength) then
        .found ⟨v.type, v.name, chunkText (front ++ v.fromName tail) span⟩
          (front.length + v.openLength + 1) span.stop span.isMark1
      else .malformed span.isMark1 := by
  obtain ⟨htext, upTo, p, rfl, hvar, hpos⟩ := hnext
  have hnam : find (upTo ++ v.name ++ v.fromName tail) ['"'] upTo.length =
      some (upTo ++ v.name).length := by
    have hquo := firstAt_char v.name_quote (v.start ++ join '<' (v.children ++ v.fromStorage tail))
    rw [append_assoc, find_append_length]
    unfold Variable.fromName
    rw [cons_append, hquo, length_append]
    rfl
  have htake := take_drop_append upTo v.name (v.fromName tail)
  rw [← append_assoc] at htake
  unfold obtainStep
  rw [hvar]
  dsimp only
  rw [hpos, htext, hnam]
  dsimp only
  rw [find_endMark]
  rw [hspn, htake]

omit hnext in
theorem endsBefore_of_lt (h : stop < varEndPos) :
    (ChunkSpan.mk start (some stop) mark1).endsBefore varEndPos = true := by
  simpa [ChunkSpan.endsBefore] using h

theorem obtainStep_chunks {chunks : ChunksElement} (hstored : v.storage = .chunks chunks) :
    ∃ stop, obtainStep str strPos oldStop mark1 =
      .found v.info (front.length + v.openLength + 1) stop true := by
  have hsho : v.lead.length + (join '<' (chunks.segments [])).length < v.openLength := by
    rw [Variable.openLength, hstored, Storage.segments, join_append, length_append]
    simp [join]
  have hstp := obtainStep_eq hnext oldStop mark1 (findChunkInfo_chunks front tail hstored oldStop)
  rw [if_pos (endsBefore_of_lt _ (by omega)), chunkText_chunks hstored] at hstp
  exact ⟨_, hstp⟩

section

variable (hstored : v.storage = .single element) (htail : ∀ s ∈ tail, '<' ∉ s ∧ ¬ chunksMark <+: s)

include hstored htail

theorem obtainStep_single (hled : ¬ closeMark <:+: v.lead) :
    ∃ stop, obtainStep str strPos oldStop mark1 =
      .found v.info (front.length + v.openLength + 1) stop false := by
  have hspn := findChunkInfo_single front hstored htail oldStop
  rw [find_close_single hstored hled] at hspn
  have hsho : v.lead.length + (singleFront element).length < v.openLength := by
    rw [Variable.openLength, hstored]
    simp [Storage.segments, singleFront, join, closeMark]
  have hstp := obtainStep_eq hnext oldStop mark1 hspn
  rw [if_pos (endsBefore_of_lt _ (by omega)), chunkText_single hstored] at hstp
  exact ⟨_, hstp⟩

theorem obtainStep_wrapped (hled : closeMark <:+: v.lead) :
    ∃ info next stop, info ≠ v.info ∧ obtainStep str strPos oldStop mark1 = .found info next stop false := by
  have hspn := findChunkInfo_single front hstored htail oldStop
  obtain ⟨p, hp, hlt⟩ := find_close_lead front tail hled
  rw [hp] at hspn
  have hle := v.length_stem_le
  have hopen : v.lead.length ≤ v.openLength := Nat.le_add_right ..
  have hstp := obtainStep_eq hnext oldStop mark1 hspn
  rw [if_pos (endsBefore_of_lt _ (by omega))] at hstp
  refine ⟨_, _, _, ?_, hstp⟩
  intro heq
  exact chunkText_wrapped hstored hlt (congrArg VarInfo.chunkInfo heq)

end

theorem obtainStep_malformed (hstored : v.storage = .single element)
    (htail : ∃ s ∈ tail, chunksMark <+: s) : obtainStep str strPos oldStop mark1 = .malformed true := by
  have hend : HasKey chunkKeys chunksEndMark := hasKey_chunkMarks _ (by simp)
  obtain ⟨p, hp⟩ : ∃ p, find (front ++ v.fromName tail) ('<' :: chunksMark) front.length = some p := by
    obtain ⟨s, hs, hpre⟩ := htail
    have hini := infix_fromName (mem_append_right _ (mem_cons_of_mem v.endSegment hs)) hpre
    obtain ⟨q, hq, -⟩ := exists_firstAt_of_infix hini []
    rw [append_nil] at hq
    rw [find_append_length, hq]
    exact ⟨_, rfl⟩
  have hspn : findChunkInfo (front ++ v.fromName tail) front.length oldStop =
      ⟨afterLastNotBlank (front ++ v.fromName tail) (some p),
        find (front ++ v.fromName tail) ('<' :: chunksEndMark) front.length, true⟩ := by
    unfold findChunkInfo
    rw [hp]
  rw [obtainStep_eq hnext oldStop mark1 hspn, if_neg]
  unfold ChunkSpan.endsBefore
  split
  · simp
  next stop hstp =>
    have hle := le_of_find_fromName (lt_notMem_marks _ (by simp)) (v.not_mark_of_child hend)
      (fun s hs => (not_chunksMark_single hstored s hs).2) hstp
    simpa using hle

theorem NextIs.exists_cut_endTag : ∃ before, str = before ++ (v.endSegment ++ join '<' ([] ++ tail)) ∧
      before.length = front.length + v.openLength + 1 := by
  refine ⟨front ++ (v.lead ++ join '<' (v.storage.segments [] v.after)) ++ ['<'], ?_, ?_⟩
  · rw [hnext.text, v.fromName_eq]
    simp [Variable.fromStorage, join_append, join_cons]
  · simp only [length_append, length_singleton, Variable.openLength]

end

end

section

variable {str : Str}

theorem obtainLoop_of_done (hstp : obtainStep str strPos oldStop mark1 = .done) :
    obtainLoop str strPos oldStop mark1 = ⟨true, [], mark1⟩ := by
  rw [obtainLoop]
  split
  · split
    · rfl
    · simp_all
    · simp_all
  · rfl

theorem obtainLoop_of_malformed (hpos : strPos < str.length)
    (hstp : obtainStep str strPos oldStop mark1 = .malformed flag) :
    obtainLoop str strPos oldStop mark1 = ⟨false, [], flag⟩ := by
  rw [obtainLoop, if_pos hpos]
  split
  · simp_all
  · simp_all
  · simp_all

theorem obtainLoop_of_found {info : VarInfo} {next : Nat} {stop : Option Nat} {flag : Bool}
    (hstp : obtainStep str strPos oldStop mark1 = .found info next stop flag) :
    obtainLoop str strPos oldStop mark1 =
      ⟨(obtainLoop str next stop flag).wellFormed, info :: (obtainLoop str next stop flag).infos,
        (obtainLoop str next stop flag).isMark1⟩ := by
  obtain ⟨hlt, hle⟩ := strPos_lt_of_found hstp
  rw [obtainLoop, if_pos (by omega)]
  split
  · simp_all
  · simp_all
  · simp_all

theorem obtainLoop_found_iff {info : VarInfo} {next : Nat} {stop : Option Nat} {flag : Bool}
    (hstp : obtainStep str strPos oldStop mark1 = .found info next stop flag) {expected : VarInfo}
    {infos : List VarInfo} {last : Bool} :
    obtainLoop str strPos oldStop mark1 = ⟨true, expected :: infos, last⟩ ↔
      info = expected ∧ obtainLoop str next stop flag = ⟨true, infos, last⟩ := by
  rw [obtainLoop_of_found hstp]
  cases hrest : obtainLoop str next stop flag
  simp only [Obtained.mk.injEq, cons.injEq]
  constructor
  · intro h
    exact ⟨h.2.1.1, h.1, h.2.1.2, h.2.2⟩
  · intro h
    exact ⟨h.2.1, ⟨h.1, h.2.2.1⟩, h.2.2.2⟩

end

theorem Variable.exists_chunksMark_iff (v : Variable) :
    (∃ s ∈ v.segments, chunksMark <+: s) ↔ v.storage.isSingle = false := by
  have hmarked : HasKey chunkKeys chunksMark := hasKey_chunkMarks _ (by simp)
  constructor
  · intro h
    obtain ⟨s, hs, hpre⟩ := h
    cases hstored : v.storage with
    | chunks element => rfl
    | single element =>
      unfold segments openSegments at hs
      simp only [cons_append, mem_cons, mem_append, not_mem_nil, or_false] at hs
      exfalso
      obtain rfl | (hchi | hseg) | rfl := hs
      · refine hmarked.excludes (by decide) ((hasKey_varMark v.type).mono ?_) hpre
        unfold startSegment
        rw [append_assoc]
        exact prefix_append ..
      · exact (v.not_mark_of_child hmarked s hchi).2 hpre
      · exact (not_chunksMark_single hstored s hseg).1.2 hpre
      · exact endSegment_not_chunksMark.2 hpre
  · intro h
    cases hstored : v.storage with
    | chunks element =>
      refine ⟨chunksMark ++ element.head, ?_, prefix_append ..⟩
      simp [segments, openSegments, hstored, Storage.segments, ChunksElement.segments]
    | single element =>
      rw [hstored] at h
      cases h

theorem exists_chunksMark_iff {vars : List Variable} {trailer : List Str}
    (htra : ∀ s ∈ trailer, OfTags outerTags s) :
    (∃ s ∈ vars.flatMap Variable.segments ++ trailer, chunksMark <+: s) ↔
      ∃ w ∈ vars, w.storage.isSingle = false := by
  have hmarked : HasKey chunkKeys chunksMark := hasKey_chunkMarks _ (by simp)
  constructor
  · intro h
    obtain ⟨s, hs, hpre⟩ := h
    cases mem_append.mp hs with
    | inl hvar =>
      obtain ⟨w, hw, hseg⟩ := mem_flatMap.mp hvar
      exact ⟨w, hw, w.exists_chunksMark_iff.mp ⟨s, hseg, hpre⟩⟩
    | inr hout =>
      exact absurd hpre (hmarked.excludes (by decide) ((htra s hout).hasKey hasKey_outerTags))
  · intro h
    obtain ⟨w, hw, hchunk⟩ := h
    obtain ⟨s, hs, hpre⟩ := w.exists_chunksMark_iff.mpr hchunk
    exact ⟨s, mem_append_left _ (mem_flatMap.mpr ⟨w, hw, hs⟩), hpre⟩

def lastFlag (flag : Bool) (vars : List Variable) : Bool :=
  vars.foldl (fun _ v => !v.storage.isSingle) flag

structure Listable (vars : List Variable) : Prop where
  lead_close : ∀ v ∈ vars, v.storage.isSingle = true → ¬ closeMark <:+: v.lead
  order : vars.Pairwise fun v w => v.storage.isSingle = true → w.storage.isSingle = true

theorem listable_cons : Listable (v :: vars) ↔
      (v.storage.isSingle = true → ¬ closeMark <:+: v.lead ∧ ∀ w ∈ vars, w.storage.isSingle = true) ∧
        Listable vars := by
  constructor
  · intro h
    have horder := pairwise_cons.mp h.order
    refine ⟨fun hsin => ⟨h.lead_close v mem_cons_self hsin, ?_⟩, ?_, horder.2⟩
    · intro w hw
      exact horder.1 w hw hsin
    · intro w hw
      exact h.lead_close w (mem_cons_of_mem v hw)
  · intro h
    refine ⟨?_, pairwise_cons.mpr ⟨?_, h.2.order⟩⟩
    · intro w hw hsin
      cases mem_cons.mp hw with
      | inl heq =>
        rw [heq] at hsin ⊢
        exact (h.1 hsin).1
      | inr hmem => exact h.2.lead_close w hmem hsin
    · intro w hw hsin
      exact (h.1 hsin).2 w hw

theorem lt_notMem_tail {vars : List Variable} (htra : ∀ s ∈ trailer, OfTags outerTags s) :
    ∀ s ∈ vars.flatMap Variable.segments ++ trailer, '<' ∉ s := by
  intro s hs
  cases mem_append.mp hs with
  | inl hvar =>
    obtain ⟨w, -, hseg⟩ := mem_flatMap.mp hvar
    exact w.lt_notMem_segments s hseg
  | inr hout => exact (htra s hout).1

theorem lastFlag_cons (flag : Bool) (v : Variable) (vars : List Variable) :
    lastFlag flag (v :: vars) = lastFlag (!v.storage.isSingle) vars := rfl

/-- The loop lists the rest of the variables just when it meets no single chunk behind a `/>` or in
front of `dmrpp:chunks`. -/
theorem obtainLoop_eq_iff {trailer : List Str} (htra : ∀ s ∈ trailer, OfTags outerTags s)
    {vars : List Variable} {str before plain : Str} {skip : List Str}
    (hstr : str = before ++ (plain ++ join '<' (skip ++ (vars.flatMap Variable.segments ++ trailer))))
    (hplace : '<' ∉ plain) (hskp : ∀ s ∈ skip, OfTags outerTags s) (oldStop : Option Nat)
    (flag last : Bool) :
    obtainLoop str before.length oldStop flag = ⟨true, vars.map Variable.info, last⟩ ↔
      Listable vars ∧ last = lastFlag flag vars := by
  induction vars generalizing before plain skip oldStop flag with
  | nil =>
    have hout : ∀ s ∈ skip ++ trailer, OfTags outerTags s := forall_mem_append.mpr ⟨hskp, htra⟩
    have hstp : obtainStep str before.length oldStop flag = .done := by
      unfold obtainStep
      rw [hstr, flatMap_nil, nil_append, nextVar_none hplace hout]
    have hlis : Listable [] := ⟨by simp, List.Pairwise.nil⟩
    rw [obtainLoop_of_done hstp]
    simp [hlis, lastFlag, eq_comm]
  | cons v vars ih =>
    rw [flatMap_cons, append_assoc] at hstr
    -- The rest of the run, once the variable itself is found.
    have hnext := nextIs_upToName hstr hplace hskp
    have hrest : ∀ stop mark1, obtainStep str before.length oldStop flag = .found v.info
          ((upToName before plain skip v ++ v.name).length + v.openLength + 1) stop mark1 →
        (obtainLoop str before.length oldStop flag = ⟨true, v.info :: vars.map Variable.info, last⟩ ↔
        Listable vars ∧ last = lastFlag mark1 vars) := by
      intro stop mark1 hstp
      obtain ⟨front, hcut, hlen⟩ := hnext.exists_cut_endTag
      rw [obtainLoop_found_iff hstp, and_iff_right rfl, ← hlen]
      exact ih hcut v.lt_notMem_endSegment (forall_mem_nil _) stop mark1
    rw [map_cons, listable_cons, lastFlag_cons]
    cases hstored : v.storage with
    | chunks element =>
      obtain ⟨stop, hstp⟩ := obtainStep_chunks hnext oldStop flag hstored
      rw [hrest stop true hstp]
      simp [Storage.isSingle]
    | single element =>
      by_cases hchunk : ∃ w ∈ vars, w.storage.isSingle = false
      · have hmal := obtainStep_malformed hnext oldStop flag hstored
          ((exists_chunksMark_iff htra).mpr hchunk)
        have hpos : before.length < str.length := by
          rw [hstr, text_eq_upToName]
          simp only [upToName, Variable.fromName, length_append, length_cons]
          omega
        have hnot : ¬ ∀ w ∈ vars, w.storage.isSingle = true := by
          intro hall
          obtain ⟨w, hw, hno⟩ := hchunk
          exact absurd (hall w hw) (by simp [hno])
        rw [obtainLoop_of_malformed hpos hmal]
        exact ⟨fun h => absurd (congrArg Obtained.wellFormed h) Bool.false_ne_true,
          fun h => absurd (h.1.1 rfl).2 hnot⟩
      · have hall : ∀ w ∈ vars, w.storage.isSingle = true := by
          intro w hw
          by_contra hno
          exact hchunk ⟨w, hw, Bool.eq_false_iff.mpr hno⟩
        have htail : ∀ s ∈ vars.flatMap Variable.segments ++ trailer, '<' ∉ s ∧ ¬ chunksMark <+: s := by
          intro s hs
          refine ⟨lt_notMem_tail htra s hs, fun hpre => hchunk ?_⟩
          exact (exists_chunksMark_iff htra).mp ⟨s, hs, hpre⟩
        by_cases hled : closeMark <:+: v.lead
        · obtain ⟨info, next, stop, hne, hstp⟩ :=
            obtainStep_wrapped hnext oldStop flag hstored htail hled
          rw [obtainLoop_found_iff hstp]
          exact ⟨fun h => absurd h.1 hne, fun h => absurd hled (h.1.1 rfl).1⟩
        · obtain ⟨stop, hstp⟩ := obtainStep_single hnext oldStop flag hstored htail hled
          rw [hrest stop false hstp]
          exact ⟨fun h => ⟨⟨fun _ => ⟨hled, hall⟩, h.1⟩, h.2⟩, fun h => ⟨h.1.2, h.2⟩⟩

theorem sameButSpace_blank (first second : Str) :
    SameButSpace (first ++ ' ' :: second) (first ++ second) := by
  have hspa : IsSpace ' ' := by decide
  unfold SameButSpace
  simp [filter_append, hspa]

def Chunk.front (chunk : Chunk) : Str := '<' :: (chunkLineMark ++ chunk.attrs)

theorem Chunk.closeMark_not_infix_front (chunk : Chunk) (hfirst : ¬ closeMark <:+: first) :
    ¬ closeMark <:+: first ++ chunk.front :=
  closeMark_not_infix_mark (by simp) hfirst chunk.attrs_close

theorem firstAt_close_chunk (chunk : Chunk) (first rest : Str) (hfirst : ¬ closeMark <:+: first) :
    firstAt closeMark (first ++ chunk.front ++ (closeMark ++ rest)) =
      some (first ++ chunk.front).length :=
  firstAt_pair (by decide) (chunk.closeMark_not_infix_front hfirst) rest

section

variable {chunkInfo : Str}

theorem addFaddrChunkCompLines_of_line
    (htmp : find chunkInfo ('<' :: chunkLineMark) strPos = some tempPos)
    (hline : find chunkInfo closeMark tempPos = some lineEnd) :
    addFaddrChunkCompLines chunkInfo fileAddr strPos tempStr foundLine =
      addFaddrChunkCompLines chunkInfo fileAddr lineEnd
        (tempStr ++ (chunkInfo.drop strPos).take (lineEnd - strPos) ++ fileAddr) true := by
  rw [addFaddrChunkCompLines]
  split
  next tempPos' htemp' =>
    obtain rfl : tempPos = tempPos' := Option.some.inj (htmp.symm.trans htemp')
    split
    next lineEnd' hline' =>
      obtain rfl : lineEnd = lineEnd' := Option.some.inj (hline.symm.trans hline')
      rfl
    · simp_all
  · simp_all

theorem addFaddrChunkCompLines_of_end (htmp : find chunkInfo ('<' :: chunkLineMark) strPos = none)
    (hstp : find chunkInfo ('<' :: chunksEndMark) strPos = some stop) :
    addFaddrChunkCompLines chunkInfo fileAddr strPos tempStr true =
      tempStr ++ ' ' :: chunkInfo.drop strPos := by
  rw [addFaddrChunkCompLines]
  split
  · simp_all
  · rw [hstp]
    rfl

def lines (chunks : List Chunk) (extra : Str) : List Str := chunks.map (·.segment extra) ++ [chunksEndMark]

theorem addFaddrChunkCompLines_same {chunks : List Chunk} {before plain : Str} {skip : List Str}
    (hinf : chunkInfo = before ++ (plain ++ join '<' (skip ++ lines chunks [])))
    (hplace : '<' ∉ plain) (hskp : ∀ s ∈ skip, '<' ∉ s ∧ ¬ chunkLineMark <+: s)
    (hski : ∀ s ∈ skip, ¬ chunksEndMark <+: s) (hfound : foundLine = true ∨ chunks ≠ []) :
    SameButSpace (addFaddrChunkCompLines chunkInfo fileAddr before.length tempStr foundLine)
      (tempStr ++ (plain ++ join '<' (skip ++ lines chunks fileAddr))) := by
  induction chunks generalizing before plain skip tempStr foundLine with
  | nil =>
    obtain rfl : foundLine = true := hfound.resolve_right (by simp)
    have htmp : find chunkInfo ('<' :: chunkLineMark) before.length = none := by
      rw [hinf, find_append_length, firstAt_markup_none (lt_notMem_marks _ (by simp)) hplace]
      · rfl
      · intro s hs
        rw [lines, map_nil, nil_append, mem_append, mem_singleton] at hs
        cases hs with
        | inl hmem => exact hskp s hmem
        | inr heq =>
          rw [heq]
          decide
    have hstp : find chunkInfo ('<' :: chunksEndMark) before.length =
        some (before.length + (plain.length + (join '<' skip).length)) := by
      rw [hinf, find_append_length, lines, map_nil, nil_append,
        firstAt_markup (lt_notMem_marks _ (by simp)) hplace
          (fun s hs => ⟨(hskp s hs).1, hski s hs⟩) (prefix_refl chunksEndMark)]
      rfl
    rw [addFaddrChunkCompLines_of_end htmp hstp, hinf, drop_left]
    exact sameButSpace_blank tempStr _
  | cons chunk chunks ih =>
    have htmp : find chunkInfo ('<' :: chunkLineMark) before.length =
        some (before ++ (plain ++ join '<' skip)).length := by
      have hline : chunkLineMark <+: chunk.segment [] := by
        simp [Chunk.segment, append_assoc]
      rw [hinf, find_append_length, lines, map_cons, cons_append,
        firstAt_markup (lt_notMem_marks _ (by simp)) hplace hskp hline]
      simp
    have hcut : chunkInfo = before ++ (plain ++ join '<' skip) ++ (chunk.front ++ (closeMark ++
        (chunk.after ++ join '<' (lines chunks [])))) := by
      rw [hinf]
      simp [lines, join_append, join_cons, Chunk.segment, Chunk.front]
    have hline : find chunkInfo closeMark (before ++ (plain ++ join '<' skip)).length =
        some (before ++ (plain ++ join '<' skip ++ chunk.front)).length := by
      have hfirst := firstAt_close_chunk chunk []
        (chunk.after ++ join '<' (lines chunks [])) (by decide)
      rw [nil_append] at hfirst
      rw [hcut, find_append_length, hfirst]
      simp only [Option.map_some, length_append, add_assoc]
    have hnext : chunkInfo = before ++ ((plain ++ join '<' skip ++ chunk.front) ++
        (closeMark ++ chunk.after ++ join '<' ([] ++ lines chunks []))) := by
      rw [hcut]
      simp
    have htake := take_drop_append before (plain ++ join '<' skip ++ chunk.front)
      (closeMark ++ chunk.after ++ join '<' ([] ++ lines chunks []))
    rw [← hnext] at htake
    have hafter : '<' ∉ closeMark ++ chunk.after := by
      rw [mem_append, not_or]
      exact ⟨lt_notMem_marks _ (by simp), lt_notMem_of_isSpace chunk.after_all⟩
    rw [addFaddrChunkCompLines_of_line htmp hline, htake]
    have hexp : tempStr ++ (plain ++ join '<' (skip ++ lines (chunk :: chunks) fileAddr)) =
        tempStr ++ (plain ++ join '<' skip ++ chunk.front) ++ fileAddr ++ (closeMark ++ chunk.after ++
          join '<' ([] ++ lines chunks fileAddr)) := by
      simp [lines, join_append, join_cons, Chunk.segment, Chunk.front]
    rw [hexp]
    exact ih (hnext.trans (append_assoc ..).symm) hafter (forall_mem_nil _)
      (forall_mem_nil _) (.inl rfl)

end

theorem addFaddrContigLine_same (hfirst : ¬ closeMark <:+: first) (rest fileAddr : Str) :
    SameButSpace (addFaddrContigLine (first ++ (closeMark ++ rest)) fileAddr)
      (first ++ fileAddr ++ (closeMark ++ rest)) := by
  have hfound : find (first ++ (closeMark ++ rest)) closeMark 0 = some first.length := by
    rw [find_zero]
    exact firstAt_pair (by decide) hfirst rest
  unfold addFaddrContigLine
  rw [hfound]
  dsimp only
  rw [take_left, drop_left]
  exact sameButSpace_blank (first ++ fileAddr) _

section

variable (v : Variable) (fileAddr : Str)

theorem Variable.closeMark_not_infix_blanks : ¬ closeMark <:+: v.blanks := by
  intro h
  rw [← append_nil v.blanks] at h
  have hnil := infix_of_infix_append (cons_ne_nil _ _) (by
    intro c hc
    rw [v.blanks_all c hc]
    decide) h
  exact absurd (infix_nil.mp hnil) (cons_ne_nil _ _)

variable {v} {element : ChunksElement}

theorem addFaddrContigLine_single (hstored : v.storage = .single single) :
    SameButSpace (addFaddrContigLine (v.chunkInfo []) fileAddr) (v.chunkInfo fileAddr) := by
  have hinf : ∀ extra, v.chunkInfo extra = v.blanks ++ singleFront single ++ extra ++ (closeMark ++ []) := by
    simp [Variable.chunkInfo, hstored, Storage.text, Storage.segments, join, singleFront]
  rw [hinf fileAddr, hinf [], append_nil]
  exact addFaddrContigLine_same
    (closeMark_not_infix_singleFront single v.closeMark_not_infix_blanks) [] fileAddr

theorem addFaddrChunkCompLines_chunks (hstored : v.storage = .chunks element) :
    SameButSpace (addFaddrChunkCompLines (v.chunkInfo []) fileAddr 0 [] false)
      (v.chunkInfo fileAddr) := by
  have hinf : ∀ extra, v.chunkInfo extra = [] ++ (v.blanks ++ join '<'
      (((chunksMark ++ element.head) :: element.sizes) ++ lines element.chunks extra)) := by
    simp [lines, Variable.chunkInfo, hstored, Storage.text, Storage.segments, ChunksElement.segments]
  have hsub : ∀ s ∈ (chunksMark ++ element.head) :: element.sizes, s ∈ element.segments [] := by
    intro s hs
    exact mem_append_left _ hs
  rw [hinf fileAddr]
  refine addFaddrChunkCompLines_same (hinf []) ?_ ?_ ?_ (.inr (cons_ne_nil _ _))
  · intro hmem
    exact absurd (v.blanks_all '<' hmem) (by decide)
  · intro s hs
    exact ⟨element.lt_notMem (by simp) s (hsub s hs), element.not_chunkLineMark s hs⟩
  · intro s hs
    exact element.not_endMark s (hsub s hs)

/-- The text of `dmrpp:chunks` up to the first chunk. -/
def ChunksElement.front (element : ChunksElement) : Str :=
  '<' :: (chunksMark ++ (element.head ++ join '<' element.sizes))

theorem ChunksElement.closeMark_not_infix_front (element : ChunksElement) {first : Str}
    (hfirst : ¬ closeMark <:+: first) : ¬ closeMark <:+: first ++ element.front :=
  closeMark_not_infix_mark (by simp) hfirst element.head_close

def weight (text : Str) : Nat := (text.filter (fun c => !decide (IsSpace c))).length

theorem weight_append (first second : Str) : weight (first ++ second) = weight first + weight second := by
  simp [weight]

theorem SameButSpace.weight_eq (h : SameButSpace first second) : weight first = weight second :=
  congrArg length h

theorem weight_chunks (chunks : List Chunk) : weight (join '<' (chunks.map (·.segment fileAddr))) =
      weight (join '<' (chunks.map (·.segment []))) + chunks.length * weight fileAddr := by
  induction chunks with
  | nil => simp [join]
  | cons chunk chunks ih =>
    have hsplit : ∀ extra, weight (join '<' ((chunk :: chunks).map (·.segment extra))) =
        weight chunk.front + weight extra + weight (closeMark ++ chunk.after) +
          weight (join '<' (chunks.map (·.segment extra))) := by
      intro extra
      rw [← weight_append, ← weight_append, ← weight_append]
      simp [join_cons, Chunk.segment, Chunk.front]
    rw [hsplit, hsplit, ih, length_cons, Nat.succ_mul]
    simp [weight]
    omega

theorem addFaddrContigLine_chunks_iff (hstored : v.storage = .chunks element) (hadd : 0 < weight fileAddr) :
    SameButSpace (addFaddrContigLine (v.chunkInfo []) fileAddr) (v.chunkInfo fileAddr) ↔
      element.more = [] := by
  have hinf : ∀ extra, v.chunkInfo extra = v.blanks ++ element.front ++ element.first.front ++ extra ++
      (closeMark ++ (element.first.after ++ join '<' (element.more.map (·.segment extra) ++
        [chunksEndMark]))) := by
    simp [Variable.chunkInfo, hstored, Storage.text, Storage.segments, ChunksElement.segments,
      ChunksElement.front, ChunksElement.chunks, Chunk.front, Chunk.segment, join_cons, join_append]
  have hfirst := element.first.closeMark_not_infix_front
    (element.closeMark_not_infix_front v.closeMark_not_infix_blanks)
  have hsame := addFaddrContigLine_same hfirst
    (element.first.after ++ join '<' (element.more.map (·.segment []) ++ [chunksEndMark])) fileAddr
  have hempty := hinf []
  rw [append_nil] at hempty
  rw [← hempty] at hsame
  constructor
  · intro h
    have hwei := hsame.weight_eq.symm.trans h.weight_eq
    rw [hinf fileAddr] at hwei
    simp only [join_append, weight_append, weight_chunks fileAddr element.more] at hwei
    have hzero : element.more.length * weight fileAddr = 0 := by
      omega
    cases Nat.mul_eq_zero.mp hzero with
    | inl hlen => exact length_eq_zero_iff.mp hlen
    | inr hnone => omega
  · intro h
    rw [hinf fileAddr, h]
    rw [h] at hsame
    exact hsame

end

theorem Variable.find_addrMark (v : Variable) : find (v.chunkInfo []) addrMark 0 = none := by
  have hhrf : "href".toList <:+: addrMark := by
    decide
  rw [find_zero]
  apply firstAt_eq_none
  intro h
  have hbla : ∀ c ∈ v.blanks, c ∉ addrMark := by
    intro c hc
    rw [v.blanks_all c hc]
    decide
  exact v.no_href (hhrf.trans (infix_of_infix_append (by decide) hbla h))

theorem fileName_isSome (h : nameMark <:+: str) : ∃ named, fileName str = some named := by
  obtain ⟨p, hp, hle⟩ := exists_firstAt_of_infix h []
  rw [append_nil] at hp
  have hlen : nameMark.length = 7 := by
    decide
  unfold fileName
  rw [find_zero, hp]
  dsimp only [Option.map_some, Option.getD_some]
  rw [if_pos (by omega)]
  exact ⟨_, rfl⟩

theorem nameMark_infix_varMark (type : VarType) : nameMark <:+: varMark type :=
  (suffix_append ..).isInfix

theorem addFaddrChunkInfo_eq (doc : Supplement) (mark1 : Bool) (faddrSource : Str) :
    ∃ named, addFaddrChunkInfo doc.text (doc.vars.map (·.chunkInfo [])) mark1 faddrSource =
      some (named, doc.vars.map fun v => addFaddr mark1 (href faddrSource) (v.chunkInfo [])) := by
  cases hvrs : doc.vars with
  | nil => exact ⟨true, rfl⟩
  | cons v vars =>
    have hname : nameMark <:+: doc.text := by
      have hstr : doc.text = [] ++ (doc.plain ++
          join '<' (doc.header ++ (v.segments ++ (vars.flatMap Variable.segments ++ doc.trailer)))) := by
        simp [Supplement.text, hvrs]
      have hfront : nameMark <:+: upToName [] doc.plain doc.header v :=
        (nameMark_infix_varMark v.type).trans
          ⟨doc.plain ++ join '<' doc.header ++ ['<'], [], by simp [upToName]⟩
      rw [hstr, text_eq_upToName, append_assoc]
      exact hfront.trans (prefix_append ..).isInfix
    obtain ⟨named, hnam⟩ := fileName_isSome hname
    unfold addFaddrChunkInfo
    rw [map_cons]
    dsimp only
    rw [v.find_addrMark, hnam]
    simp

theorem lastFlag_of_forall
    (h : ∀ v ∈ vars, (!v.storage.isSingle) = flag) : lastFlag flag vars = flag := by
  induction vars with
  | nil => rfl
  | cons v vars ih =>
    obtain ⟨hv, hrest⟩ := forall_mem_cons.mp h
    rw [lastFlag_cons, hv, ih hrest]

theorem lastFlag_of_single (hlis : Listable vars)
    (hv : v ∈ vars) (hsin : v.storage.isSingle = true) (flag : Bool) : lastFlag flag vars = false := by
  induction vars generalizing flag with
  | nil => cases hv
  | cons w vars ih =>
    have hcns := listable_cons.mp hlis
    rw [lastFlag_cons]
    cases mem_cons.mp hv with
    | inl heq =>
      rw [heq] at hsin
      rw [hsin]
      apply lastFlag_of_forall
      intro u hu
      rw [(hcns.1 hsin).2 u hu]
    | inr hmem => exact ih hcns.2 hmem _

theorem obtainVarInfo_eq_iff (doc : Supplement) (isMark1 mark1 : Bool) :
    obtainVarInfo doc.text isMark1 = ⟨true, doc.vars.map Variable.info, mark1⟩ ↔
      doc.text ≠ [] ∧ Listable doc.vars ∧ mark1 = lastFlag isMark1 doc.vars := by
  unfold obtainVarInfo
  split
  next hnil =>
    exact ⟨fun h => absurd (congrArg Obtained.wellFormed h) Bool.false_ne_true,
      fun h => absurd hnil h.1⟩
  next hne =>
    rw [and_iff_right hne]
    exact obtainLoop_eq_iff doc.trailer_tags (nil_append _).symm doc.plain_lt doc.header_tags _ _ _

theorem weight_href (faddrSource : Str) : 0 < weight (href faddrSource) := by
  unfold href
  rw [weight_append, weight_append]
  have hnam : 0 < weight " href=\"".toList := by
    decide
  omega

theorem addFaddr_same_iff {v : Variable} (faddrSource : Str) (mark1 : Bool)
    (hmarked : v.storage.isSingle = true → mark1 = false) :
    SameButSpace (addFaddr mark1 (href faddrSource) (v.chunkInfo [])) (v.chunkInfo (href faddrSource)) ↔
      (mark1 = false → ∀ element, v.storage = .chunks element → element.more = []) := by
  unfold addFaddr
  cases hstored : v.storage with
  | chunks element =>
    cases mark1 with
    | true => simp [addFaddrChunkCompLines_chunks (href faddrSource) hstored]
    | false =>
      simp [addFaddrContigLine_chunks_iff (href faddrSource) hstored (weight_href faddrSource)]
  | single element =>
    have hfal : mark1 = false := hmarked (by rw [hstored]; rfl)
    simp [hfal, addFaddrContigLine_single (href faddrSource) hstored]

theorem exists_single_of_lastFlag (hne : vars ≠ [])
    (hlast : lastFlag flag vars = false) : ∃ v ∈ vars, v.storage.isSingle = true := by
  by_contra hnone
  have hall : ∀ v ∈ vars, (!v.storage.isSingle) = true := by
    intro v hv
    rw [Bool.not_eq_true', Bool.eq_false_iff]
    exact fun hsin => hnone ⟨v, hv, hsin⟩
  obtain ⟨w, vars, rfl⟩ := exists_cons_of_ne_nil hne
  obtain ⟨hw, hrest⟩ := forall_mem_cons.mp hall
  rw [lastFlag_cons, hw, lastFlag_of_forall hrest] at hlast
  cases hlast

theorem merges_iff (doc : Supplement) (isMark1 : Bool) (faddrSource : Str) :
    Merges doc isMark1 faddrSource ↔ (doc.text ≠ [] ∧ Listable doc.vars) ∧ ∀ v ∈ doc.vars,
        SameButSpace (addFaddr (lastFlag isMark1 doc.vars) (href faddrSource) (v.chunkInfo []))
          (v.chunkInfo (href faddrSource)) := by
  constructor
  · intro h
    obtain ⟨mark1, hobt, named, infos, hadd, hsame⟩ := h
    obtain ⟨hne, hlis, rfl⟩ := (obtainVarInfo_eq_iff doc isMark1 mark1).mp hobt
    obtain ⟨named', hadd'⟩ := addFaddrChunkInfo_eq doc (lastFlag isMark1 doc.vars) faddrSource
    have hinf := congrArg Prod.snd (Option.some.inj (hadd.symm.trans hadd'))
    dsimp only at hinf
    rw [hinf, forall₂_map_right_iff, forall₂_same] at hsame
    exact ⟨⟨hne, hlis⟩, hsame⟩
  · intro h
    obtain ⟨⟨hne, hlis⟩, hsame⟩ := h
    obtain ⟨named, hadd⟩ := addFaddrChunkInfo_eq doc (lastFlag isMark1 doc.vars) faddrSource
    refine ⟨lastFlag isMark1 doc.vars, (obtainVarInfo_eq_iff doc isMark1 _).mpr ⟨hne, hlis, rfl⟩,
      named, _, hadd, ?_⟩
    rw [forall₂_map_right_iff, forall₂_same]
    exact hsame

/-- Every variable is listed with its own chunk information and every chunk gets the address, just for
the texts that `Mergeable` describes. -/
theorem merges_iff_mergeable (doc : Supplement) (isMark1 : Bool) (faddrSource : Str) :
    Merges doc isMark1 faddrSource ↔ Mergeable doc := by
  rw [merges_iff]
  have hsame : Listable doc.vars → ∀ v ∈ doc.vars,
      (SameButSpace (addFaddr (lastFlag isMark1 doc.vars) (href faddrSource) (v.chunkInfo []))
          (v.chunkInfo (href faddrSource)) ↔
        (lastFlag isMark1 doc.vars = false → ∀ element, v.storage = .chunks element →
          element.more = [])) := by
    intro hlis v hv
    exact addFaddr_same_iff faddrSource _ fun hsin => lastFlag_of_single hlis hv hsin _
  constructor
  · intro h
    obtain ⟨⟨hne, hlis⟩, hall⟩ := h
    refine ⟨hne, hlis.lead_close, hlis.order, ?_⟩
    intro hex v hv
    obtain ⟨w, hw, hsin⟩ := hex
    exact (hsame hlis v hv).mp (hall v hv) (lastFlag_of_single hlis hw hsin _)
  · intro h
    have hlis : Listable doc.vars := ⟨h.lead_close, h.order⟩
    refine ⟨⟨h.text_ne, hlis⟩, ?_⟩
    intro v hv
    apply (hsame hlis v hv).mpr
    intro hlast
    exact h.one_chunk (exists_single_of_lastFlag (ne_nil_of_mem hv) hlast) v hv

def dimensionedAttrs : Str := "offset=\"0\" nBytes=\"4\"".toList

theorem dimensionedAttrs_lt : '<' ∉ dimensionedAttrs := by
  decide

theorem dimensionedAttrs_close : ¬ closeMark <:+: dimensionedAttrs := by
  decide

def dimensionedChild : Str := "Dim name=\"/x\"/>".toList

theorem dimensionedChild_tags : ∀ s ∈ [dimensionedChild], OfTags childTags s := by
  intro s hs
  rw [mem_singleton.mp hs]
  exact ⟨by decide, "Dim".toList, mem_cons_self, by decide⟩

theorem notMem_singletons : '"' ∉ ['a'] ∧ '<' ∉ ['a'] ∧ '<' ∉ ['>'] := by
  decide

theorem dimensioned_no_href : ¬ "href".toList <:+:
      (Storage.single ⟨dimensionedAttrs, dimensionedAttrs_lt, dimensionedAttrs_close⟩).text [] := by
  decide +kernel

def dimensionedVar : Variable where
  type := .float32
  name := ['a']
  start := ['>']
  children := [dimensionedChild]
  storage := .single ⟨dimensionedAttrs, dimensionedAttrs_lt, dimensionedAttrs_close⟩
  after := []
  behind := []
  name_quote := notMem_singletons.1
  name_lt := notMem_singletons.2.1
  start_lt := notMem_singletons.2.2
  children_tags := dimensionedChild_tags
  after_lt := not_mem_nil
  behind_lt := not_mem_nil
  no_href := dimensioned_no_href

def dimensioned : Supplement where
  plain := []
  header := []
  vars := [dimensionedVar]
  trailer := []
  plain_lt := not_mem_nil
  header_tags := forall_mem_nil _
  trailer_tags := forall_mem_nil _

/-- The `/>` of the dimension is taken for the end of the chunk, and the text runs on to the end. -/
theorem dimensioned_listed : dimensioned.text =
        "<Float32 name=\"a\"><Dim name=\"/x\"/><dmrpp:chunk offset=\"0\" nBytes=\"4\"/></Float32>".toList ∧
      obtainVarInfo dimensioned.text false = ⟨true, [⟨.float32, ['a'],
          "<dmrpp:chunk offset=\"0\" nBytes=\"4\"/></Float32>/>".toList⟩], false⟩ ∧
      ¬ Merges dimensioned false "a.h5".toList := by
  refine ⟨by decide +kernel, ?_, ?_⟩
  · have hstep : obtainStep dimensioned.text 0 (some 0) false =
        .found ⟨.float32, ['a'], "<dmrpp:chunk offset=\"0\" nBytes=\"4\"/></Float32>/>".toList⟩
          71 (some 32) false := by
      decide +kernel
    have hlast : obtainStep dimensioned.text 71 (some 32) false = .done := by
      decide +kernel
    unfold obtainVarInfo
    rw [if_neg (by decide +kernel), obtainLoop_of_found hstep, obtainLoop_of_done hlast]
  · rw [merges_iff]
    intro h
    exact h.1.2.lead_close dimensionedVar mem_cons_self rfl (by decide +kernel)

end Bes.Dmrpp.MergeDmrpp

import Bes.Ppt.Framing

/-! Headers that no sender writes. The length is taken from a header with `>> hex`, and the state of the stream
is not looked at afterwards. -/
namespace Bes.Ppt
open Dispatch Lib List

def Wellformed (header : Str) : Prop := ∀ c ∈ header.take 7, (Hex.digitOf c).isSome

instance (header : Str) : Decidable (Wellformed header) :=
  decidableBAll (fun c => (Hex.digitOf c).isSome) (header.take 7)

/-- What a receiver owes to a header: whatever follows it and however the bytes arrive, a malformed one is an
error, and any other announces exactly the number it writes. -/
structure TakenExactly (header : Str) : Prop where
  rejected : ¬ Wellformed header → ∀ (connection : Connection) (rest : Str),
    9 ≤ connection.inBuffLen + 1 → connection.sock.incoming = header ++ rest →
    ∀ extensions strm, ∃ message, connection.receive extensions strm = .error (.internal message)
  exact_length : Wellformed header → ∀ (connection : Connection) (rest : Str),
    9 ≤ connection.inBuffLen + 1 → connection.sock.incoming = header ++ rest →
    ∀ extensions strm received, connection.receive extensions strm = .ok received →
      (received.last = true → Hex.value (header.take 7) = 0) ∧
      (header[7]? = some 'd' → received.strm.length = strm.length + Hex.value (header.take 7))

theorem Socket.receive_cases (sock : Socket) (size : Nat) :
    (∃ message, sock.receive size = .error (.internal message)) ∨
      ∃ got events, (0 < size → 0 < got) ∧ got ≤ size ∧
        sock.receive size = .ok (sock.incoming.take got, ⟨sock.incoming.drop got, events⟩) := by
  unfold Socket.receive
  rw [Socket.Ready.receiveLoop_eq]
  unfold Socket.read
  cases (sock.events 0).outcome with
  | failed text => exact .inl ⟨_, rfl⟩
  | data count =>
    apply Or.inr
    refine ⟨min (max count 1) size, fun n => sock.events (n + 1), ?_, Nat.min_le_right _ _, rfl⟩
    omega

theorem readChunkHeader_cases (hinc : sock.incoming = text ++ rest) (hne : text ≠ []) (buffer : Str) :
    (∃ message, readChunkHeader sock text.length buffer = .error (.internal message)) ∨
      ∃ next, readChunkHeader sock text.length buffer = .ok (buffer ++ text, next) ∧ next.incoming = rest := by
  induction hlen : text.length using Nat.strong_induction_on generalizing sock text buffer with
  | _ length ih =>
    have hpos := length_pos_of_ne_nil hne
    unfold readChunkHeader
    obtain ⟨message, hfail⟩ | ⟨got, events, hsom, hle, hread⟩ := sock.receive_cases length
    · rw [hfail]
      exact .inl ⟨message, rfl⟩
    · rw [hread, hinc, take_append_of_le_length (by omega), drop_append_of_le_length (by omega)]
      have hgot : (text.take got).length = got := length_take_of_le (by omega)
      have hpie : text.take got ≠ [] := ne_nil_of_length_pos (by omega)
      dsimp only
      rw [if_neg hpie, hgot]
      by_cases hmore : got < length
      · have hdrop : (text.drop got).length = length - got := by rw [length_drop, hlen]
        have hleft : (⟨text.drop got ++ rest, events⟩ : Socket).incoming = text.drop got ++ rest := rfl
        rw [if_pos hmore]
        have hrest := ih (length - got) (by omega) hleft (ne_nil_of_length_pos (by omega))
          (buffer ++ text.take got) hdrop
        rw [append_assoc, take_append_drop] at hrest
        exact hrest
      · rw [if_neg hmore, take_of_length_le (by omega), drop_of_length_le (by omega)]
        exact .inr ⟨_, rfl, rfl⟩

theorem receive_header_cases {connection : Connection}
    (hhdr : header.length = 8) (hroom : 9 ≤ connection.inBuffLen + 1)
    (hinc : connection.sock.incoming = header ++ rest) :
    (∃ message, connection.receive extensions strm = .error (.internal message)) ∨
      ∃ next : Connection, connection.receive extensions strm =
        receiveChunk next (headerLength header) header[7]? extensions strm := by
  have hne : header ≠ [] := ne_nil_of_length_pos (by omega)
  unfold Connection.receive
  rw [if_neg (by omega)]
  cases readChunkHeader_cases hinc hne [] with
  | inl hfail =>
    obtain ⟨message, hfail⟩ := hfail
    rw [hhdr] at hfail
    rw [hfail]
    exact .inl ⟨message, rfl⟩
  | inr hread =>
    obtain ⟨sock, hread, -⟩ := hread
    rw [hhdr, nil_append] at hread
    rw [hread]
    dsimp only
    rw [if_neg (not_not.mpr hhdr)]
    exact .inr ⟨{ connection with sock := sock }, rfl⟩

theorem receiveData_zero (inBuffLen : Nat) (sock : Socket) (strm : Str) :
    ∃ message, receiveData inBuffLen sock 0 strm = .error (.internal message) := by
  unfold receiveData
  rw [Nat.zero_min]
  obtain ⟨message, hfail⟩ | ⟨got, events, -, hle, hread⟩ := sock.receive_cases 0
  · rw [hfail]
    exact ⟨message, rfl⟩
  · rw [hread, Nat.le_zero.mp hle]
    exact ⟨_, rfl⟩

theorem length_receiveData {inBuffLen len : Nat} {sock next : Socket} {strm out : Str}
    (hreceive : receiveData inBuffLen sock len strm = .ok (out, next)) : out.length = strm.length + len := by
  induction len using Nat.strong_induction_on generalizing sock strm with
  | _ len ih =>
    unfold receiveData at hreceive
    obtain ⟨message, hfail⟩ | ⟨got, events, -, hle, hread⟩ := sock.receive_cases (min len inBuffLen)
    · rw [hfail] at hreceive
      cases hreceive
    · rw [hread] at hreceive
      dsimp only at hreceive
      have htake : (sock.incoming.take got).length ≤ got := length_take_le _ _
      split at hreceive
      · cases hreceive
      next hpie =>
        have hpos := length_pos_of_ne_nil hpie
        split at hreceive
        · have hrest := ih _ (by omega) hreceive
          rw [length_append] at hrest
          omega
        · cases hreceive
          rw [length_append]
          omega

theorem headerLength_of_wellformed (hhdr : header.length = 8) (hwll : Wellformed header) :
    headerLength header = Hex.value (header.take 7) := by
  have hrun : (header.take 7).takeWhile (fun c => decide (c ≠ '\x00')) = header.take 7 := by
    apply takeWhile_eq_self_iff.mpr
    intro c hc
    rw [decide_eq_true_eq]
    exact (Hex.digitOf_plain (hwll c hc)).2.2.2.2.2
  have hne : header.take 7 ≠ [] := by
    apply ne_nil_of_length_pos
    rw [length_take, hhdr]
    decide
  unfold headerLength
  rw [hrun, Hex.scan_of_digits hne hwll]
  rfl

theorem receiveChunk_exact {connection : Connection} {inlen : Nat} {kind : Option Char} {extensions : Extensions}
    {strm : Str} {received : Received}
    (hreceive : receiveChunk connection inlen kind extensions strm = .ok received) :
    (received.last = true → inlen = 0) ∧
      (kind = some 'd' → received.strm.length = strm.length + inlen) := by
  have hnone : ¬ (inlen : Int) < 0 := by omega
  unfold receiveChunk at hreceive
  simp only [if_neg hnone, Int.toNat_natCast] at hreceive
  split at hreceive
  · split at hreceive
    · cases hreceive
    · split at hreceive
      · cases hreceive
      · cases hreceive
        exact ⟨fun h => absurd h Bool.false_ne_true, fun h => by cases h⟩
  · split at hreceive
    next hzero =>
      cases hreceive
      have hzero' : inlen = 0 := by exact_mod_cast hzero
      exact ⟨fun _ => hzero', fun _ => by rw [hzero', add_zero]⟩
    · split at hreceive
      · cases hreceive
      next out sock hdat =>
        cases hreceive
        exact ⟨fun h => absurd h Bool.false_ne_true, fun _ => length_receiveData hdat⟩
  · cases hreceive

def bytewise (incoming : Str) : Connection := ⟨⟨incoming, fun _ => ⟨[], .data 1⟩⟩, 8⟩

theorem bytewise_ready (incoming : Str) : (bytewise incoming).Ready incoming :=
  ⟨Nat.le_succ 9, rfl, fun _ => ⟨1, rfl⟩⟩

theorem readExtensions_letters (n : Nat) (extensions : Extensions) :
    ∃ built, readExtensions extensions (replicate n 'a' ++ [';']) = .ok built := by
  have hsem : ';' ∉ replicate n 'a' := by simp
  have hpart : (replicate n 'a' ++ [';']).takeWhile (fun c => decide (c ≠ ';')) =
      replicate n 'a' := takeWhile_ne hsem []
  have hrest : (replicate n 'a' ++ [';']).drop ((replicate n 'a').length + 1) = [] := by simp
  unfold readExtensions
  rw [if_pos (by simp)]
  dsimp only
  rw [hpart, hrest, readExtension, if_neg (by simp)]
  exact ⟨_, rfl⟩

theorem receiveChunk_negative (connection : Connection) (hnegative : inlen < 0)
    (hkind : kind = 'd' ∨ kind = 'x') (extensions : Extensions) (strm : Str) :
    ∃ message, receiveChunk connection inlen (some kind) extensions strm = .error (.internal message) := by
  have hzero : inlen ≠ 0 := by omega
  cases hkind with
  | inl hdata =>
    subst hdata
    simp only [receiveChunk, if_neg hzero, if_pos hnegative]
    exact ⟨_, rfl⟩
  | inr hextensions =>
    subst hextensions
    simp only [receiveChunk, if_pos hnegative]
    exact ⟨_, rfl⟩

theorem receiveChunk_unknown (connection : Connection) (inlen : Int)
    (hknd : kind ≠ some 'd' ∧ kind ≠ some 'x') (extensions : Extensions) (strm : Str) :
    ∃ message, receiveChunk connection inlen kind extensions strm = .error (.internal message) := by
  simp only [receiveChunk]
  split
  · exact absurd rfl hknd.2
  · exact absurd rfl hknd.1
  · exact ⟨_, rfl⟩

theorem exists_not_rejected (hhdr : header.length = 8) (hkind : header[7]? = some kind)
    (hlong : kind = 'd' ∧ 0 ≤ headerLength header ∨ kind = 'x' ∧ 0 < headerLength header) :
    ∃ rest, ∀ message, (bytewise (header ++ rest)).receive .empty [] ≠ .error (.internal message) := by
  have hreceive : ∀ rest, ∃ next : Connection, (bytewise (header ++ rest)).receive .empty [] =
      receiveChunk next (headerLength header) (some kind) .empty [] ∧ next.Ready rest := by
    intro rest
    rw [← hkind]
    exact (bytewise_ready (header ++ rest)).receive_header hhdr
  obtain hzero | hpos : headerLength header = 0 ∨ 0 < headerLength header := by omega
  · have hdat : kind = 'd' := (hlong.resolve_right fun h => h.2.ne' hzero).1
    subst hdat
    refine ⟨[], fun message => ?_⟩
    obtain ⟨next, hchunk, -⟩ := hreceive []
    rw [hchunk, hzero]
    exact fun h => by cases h
  · obtain ⟨n, hn⟩ : ∃ n : Nat, headerLength header = (n + 1 : Nat) :=
      ⟨(headerLength header).toNat - 1, by omega⟩
    have hlen : (replicate n 'a' ++ [';']).length = n + 1 := by simp
    have hne : replicate n 'a' ++ [';'] ≠ [] := by simp
    refine ⟨replicate n 'a' ++ [';'], fun message => ?_⟩
    obtain ⟨next, hchunk, hnext⟩ := hreceive (replicate n 'a' ++ [';'])
    rw [← append_nil (replicate n 'a' ++ [';'])] at hnext
    rw [hchunk, hn, ← hlen]
    obtain hdat | hext := hlong.imp And.left And.left
    · obtain ⟨last, hok, -⟩ := @Connection.Ready.receiveChunk_data next _ [] [] .empty hnext hne
      rw [hdat, hok]
      exact fun h => by cases h
    · obtain ⟨built, hbui⟩ := readExtensions_letters n .empty
      obtain ⟨last, hok, -⟩ :=
        @Connection.Ready.receiveChunk_extensions next _ [] [] .empty built hnext hne hbui
      rw [hext, hok]
      exact fun h => by cases h

/-- What is owed holds exactly for well-formed headers, for those of an unknown kind, for a negative length
and for extensions of which no length can be read. -/
theorem takenExactly_iff (header : Str) (hheader : header.length = 8) : TakenExactly header ↔
      Wellformed header ∨ (header[7]? ≠ some 'd' ∧ header[7]? ≠ some 'x') ∨
        headerLength header < 0 ∨ (header[7]? = some 'x' ∧ headerLength header = 0) := by
  constructor
  · intro htaken
    by_contra hnot
    rw [not_or, not_or, not_or] at hnot
    obtain ⟨hmalformed, hknown, hnonneg, hlong⟩ := hnot
    obtain ⟨kind, hkind⟩ : ∃ kind, header[7]? = some kind :=
      ⟨_, getElem?_eq_getElem (by omega)⟩
    have hbelieved : kind = 'd' ∧ 0 ≤ headerLength header ∨ kind = 'x' ∧ 0 < headerLength header := by
      rw [hkind] at hknown hlong
      simp only [ne_eq, Option.some.injEq] at hknown hlong
      by_cases hdata : kind = 'd'
      · exact .inl ⟨hdata, by omega⟩
      · have hext : kind = 'x' := by tauto
        have hsome : headerLength header ≠ 0 := fun hzero => hlong ⟨hext, hzero⟩
        exact .inr ⟨hext, by omega⟩
    obtain ⟨rest, hrest⟩ := exists_not_rejected hheader hkind hbelieved
    obtain ⟨message, hmessage⟩ := htaken.rejected hmalformed (bytewise (header ++ rest)) rest
      (bytewise_ready _).buffer rfl .empty []
    exact hrest message hmessage
  · intro hcases
    constructor
    · intro hmalformed connection rest hroom hinc extensions strm
      obtain hfail | ⟨next, hchunk⟩ := receive_header_cases hheader hroom hinc
      · exact hfail
      · rw [hchunk]
        by_cases hknown : header[7]? ≠ some 'd' ∧ header[7]? ≠ some 'x'
        · exact receiveChunk_unknown next _ hknown extensions strm
        obtain hnegative | ⟨hext, hzero⟩ := (hcases.resolve_left hmalformed).resolve_left hknown
        · obtain hdata | hext : header[7]? = some 'd' ∨ header[7]? = some 'x' := by tauto
          · rw [hdata]
            exact receiveChunk_negative next hnegative (.inl rfl) extensions strm
          · rw [hext]
            exact receiveChunk_negative next hnegative (.inr rfl) extensions strm
        · rw [hext, hzero]
          obtain ⟨message, hbody⟩ := receiveData_zero next.inBuffLen next.sock []
          refine ⟨message, ?_⟩
          simp only [receiveChunk, lt_irrefl, if_false, Int.toNat_zero, hbody]
    · intro hwell connection rest hroom hinc extensions strm received hreceived
      obtain ⟨message, hfail⟩ | ⟨next, hchunk⟩ := receive_header_cases hheader hroom hinc
      · rw [hfail] at hreceived
        cases hreceived
      · rw [hchunk, headerLength_of_wellformed hheader hwell] at hreceived
        exact receiveChunk_exact hreceived

theorem takenExactly_iff_unknown : TakenExactly "zzzzzzzq".toList :=
  (takenExactly_iff "zzzzzzzq".toList (by decide)).mpr (by decide)

theorem letters_end_the_message : ¬ Wellformed "zzzzzzzd".toList ∧
      ∃ received, (bytewise ("zzzzzzzd".toList ++ [])).receive .empty [] = .ok received ∧
        received.last = true := by
  refine ⟨by decide, ?_⟩
  obtain ⟨next, hchunk, -⟩ := @Connection.Ready.receive_header _ _ [] .empty _
    (bytewise_ready ("zzzzzzzd".toList ++ [])) (by decide)
  have hzero : headerLength "zzzzzzzd".toList = 0 := by decide
  rw [hchunk, hzero]
  exact ⟨_, rfl, rfl⟩

end Bes.Ppt

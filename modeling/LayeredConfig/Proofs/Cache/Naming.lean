import LayeredConfig.Proofs.Cache.Save

/-!
# The names of entries

The file of a key has the key and `.yml` as its name, and from such a name, and from no other, the
key is read again. A key has sixty-four hexadecimal digits. What is digested for a key has no two
readings as long as no text has a zero byte: requests that differ have different material.
-/

namespace LayeredConfig

/-! ## Bytes of texts -/

namespace Text

/-- The bytes of a text. -/
def octets (s : String) : List UInt8 := s.toUTF8.data.toList

theorem octets_injective : Function.Injective octets := fun s t h => by
  have hbytes : s.toUTF8 = t.toUTF8 := ByteArray.ext (Array.toList_inj.1 h)
  rwa [String.toUTF8_eq_toByteArray, String.toUTF8_eq_toByteArray, String.toByteArray_inj]
    at hbytes

theorem octets_eq (s : String) : octets s = s.toList.flatMap String.utf8EncodeChar := by
  rw [octets, String.toUTF8_eq_toByteArray, ← String.utf8Encode_toList, List.utf8Encode,
    List.toList_data_toByteArray]

/-- The byte 255 is in no character, and the byte 0 in no other than the zero character. -/
theorem of_mem_utf8EncodeChar {c : Char} {b : UInt8} (h : b ∈ String.utf8EncodeChar c) :
    b ≠ 0xFF ∧ (b = 0 → c = '\x00') := by
  have hbyte (n : Nat) (hn : n < 256) : (UInt8.ofNat n).toNat = n := by
    rw [UInt8.toNat_ofNat', Nat.mod_eq_of_lt hn]
  have hzero : c.val.toNat = 0 → c = '\x00' := fun h => Char.ext (UInt32.toNat_inj.1 h)
  simp only [ne_eq, ← UInt8.toNat_inj]
  unfold String.utf8EncodeChar at h
  dsimp only at h
  split at h
  · rw [List.mem_singleton] at h
    rw [h, hbyte _ (by omega)]
    exact ⟨by change ¬ _ = 255; omega, hzero⟩
  -- Each byte of a longer character has its highest bit set, and not all the others.
  all_goals
    have hlong : 128 ≤ b.toNat ∧ b.toNat < 255 := by
      repeat' split at h
      all_goals simp only [List.mem_cons, List.not_mem_nil, or_false] at h
      · obtain h | h := h <;> rw [h, hbyte _ (by omega)] <;> omega
      · obtain h | h | h := h <;> rw [h, hbyte _ (by omega)] <;> omega
      · obtain h | h | h | h := h <;> rw [h, hbyte _ (by omega)] <;> omega
    exact ⟨by change ¬ _ = 255; omega, fun h => by change _ = 0 at h; omega⟩

theorem notMem_octets (s : String) : 0xFF ∉ octets s := by
  rw [octets_eq, List.mem_flatMap]
  rintro ⟨c, -, hc⟩
  exact (of_mem_utf8EncodeChar hc).1 rfl

theorem zero_notMem_octets {s : String} (h : '\x00' ∉ s.toList) : 0 ∉ octets s := by
  rw [octets_eq, List.mem_flatMap]
  rintro ⟨c, hmem, hc⟩
  exact h ((of_mem_utf8EncodeChar hc).2 rfl ▸ hmem)

end Text

namespace Cache

/-! ## Material -/

theorem listed_octets (texts : List String) :
    (listed texts).data.toList = texts.flatMap fun s => Text.octets s ++ [0] := by
  suffices hfold : ∀ bytes : ByteArray,
      (texts.foldl (fun bytes s => (bytes ++ s.toUTF8).push 0) bytes).data.toList =
        bytes.data.toList ++ texts.flatMap fun s => Text.octets s ++ [0] from hfold ByteArray.empty
  induction texts with
  | nil => simp
  | cons s rest ih =>
    intro bytes
    rw [List.foldl_cons, ih, ByteArray.data_push, ByteArray.data_append, Array.toList_push,
      Array.toList_append, List.flatMap_cons, Text.octets]
    simp only [List.append_assoc]

/-- What stands before the first of some element is told by the whole list. -/
theorem eq_of_append_cons {α : Type} [DecidableEq α] {a : α} {u u' v v' : List α} (hu : a ∉ u)
    (hu' : a ∉ u') (h : u ++ a :: v = u' ++ a :: v') : u = u' ∧ v = v' := by
  have hbefore {u v : List α} (hu : a ∉ u) : (u ++ a :: v).takeWhile (· != a) = u := by
    have hother : ∀ b ∈ u, (b != a) = true := fun b hb => by
      rw [bne_iff_ne]
      rintro rfl
      exact hu hb
    rw [List.takeWhile_append_of_pos hother, List.takeWhile_cons_of_neg (by simp), List.append_nil]
  obtain rfl : u = u' := by rw [← hbefore hu, h, hbefore hu']
  exact ⟨rfl, (List.cons.inj (List.append_cancel_left h)).2⟩

theorem listed_inj {texts texts' : List String} (h : ∀ s ∈ texts, '\x00' ∉ s.toList)
    (h' : ∀ s ∈ texts', '\x00' ∉ s.toList)
    (hlisted : (texts.flatMap fun s => Text.octets s ++ [0]) =
      texts'.flatMap fun s => Text.octets s ++ [0]) : texts = texts' := by
  induction texts generalizing texts' with
  | nil =>
    cases texts' with
    | nil => rfl
    | cons s' rest' => simp at hlisted
  | cons s rest ih =>
    cases texts' with
    | nil => simp at hlisted
    | cons s' rest' =>
      rw [List.forall_mem_cons] at h h'
      simp only [List.flatMap_cons, List.append_assoc, List.singleton_append] at hlisted
      obtain ⟨hfirst, hrest⟩ := eq_of_append_cons (Text.zero_notMem_octets h.1)
        (Text.zero_notMem_octets h'.1) hlisted
      rw [Text.octets_injective hfirst, ih h.2 h'.2 hrest]

/-- Without zero characters, different requests have different material. -/
theorem material_inj {paths paths' : List FilePath} {settings settings' : List String}
    (hpaths : ∀ p ∈ paths, '\x00' ∉ p.text.toList) (hpaths' : ∀ p ∈ paths', '\x00' ∉ p.text.toList)
    (hsettings : ∀ s ∈ settings, '\x00' ∉ s.toList)
    (hsettings' : ∀ s ∈ settings', '\x00' ∉ s.toList)
    (h : material paths settings = material paths' settings') :
    paths = paths' ∧ settings = settings' := by
  have hmaterial (paths : List FilePath) (settings : List String) :
      (material paths settings).data.toList = (listed (paths.map FilePath.text)).data.toList ++
        0xFF :: (listed settings).data.toList := by
    simp [material, ByteArray.data_append, ByteArray.data_push]
  have hfree (texts : List String) : 0xFF ∉ (listed texts).data.toList := by
    rw [listed_octets, List.mem_flatMap]
    rintro ⟨s, -, hs⟩
    rcases List.mem_append.1 hs with hs | hs
    · exact Text.notMem_octets s hs
    · exact absurd (List.mem_singleton.1 hs) (by decide)
  have hbytes := congrArg (fun bytes => bytes.data.toList) h
  simp only [hmaterial] at hbytes
  -- The byte 255 is in no text, so the first one stands between the paths and the settings.
  obtain ⟨hfirst, hsecond⟩ := eq_of_append_cons (hfree _) (hfree _) hbytes
  rw [listed_octets, listed_octets] at hfirst hsecond
  refine ⟨List.map_injective_iff.2 (fun p q => ?_) (listed_inj ?_ ?_ hfirst),
    listed_inj hsettings hsettings' hsecond⟩
  · exact FilePath.mk.injEq .. ▸ id
  · exact fun s hs => by obtain ⟨p, hp, rfl⟩ := List.mem_map.1 hs; exact hpaths p hp
  · exact fun s hs => by obtain ⟨p, hp, rfl⟩ := List.mem_map.1 hs; exact hpaths' p hp

/-- What is digested for the key of a request. -/
def digested (directory : FilePath) (paths : List FilePath) (settings : List String) : ByteArray :=
  material (paths.map (FilePath.normalize directory)) settings

theorem key_eq (directory : FilePath) (paths : List FilePath) (settings : List String) :
    key directory paths settings = Sha256.hex (digested directory paths settings) := rfl

/-- Two requests whose texts have no zero character, the paths in normal form, are digested from the
same bytes exactly when they have the same paths in normal form and the same settings, in the same
order and equally often. -/
theorem digested_tells_request {directory directory' : FilePath} {paths paths' : List FilePath}
    {settings settings' : List String}
    (hpaths : ∀ p ∈ paths, '\x00' ∉ (FilePath.normalize directory p).text.toList)
    (hpaths' : ∀ p ∈ paths', '\x00' ∉ (FilePath.normalize directory' p).text.toList)
    (hsettings : ∀ s ∈ settings, '\x00' ∉ s.toList)
    (hsettings' : ∀ s ∈ settings', '\x00' ∉ s.toList) :
    digested directory paths settings = digested directory' paths' settings' ↔
      paths.map (FilePath.normalize directory) = paths'.map (FilePath.normalize directory') ∧
        settings = settings' := by
  constructor
  · exact material_inj (List.forall_mem_map.2 hpaths) (List.forall_mem_map.2 hpaths') hsettings
      hsettings'
  · rintro ⟨hnormal, rfl⟩
    rw [digested, digested, hnormal]

/-- A text that moves from the paths to the settings changes what is digested, and another spelling
of a path does not. -/
theorem moved_text_is_told :
    digested ⟨"/w"⟩ [⟨"a"⟩, ⟨"b"⟩] [] ≠ digested ⟨"/w"⟩ [⟨"a"⟩] ["/w/b"] ∧
      digested ⟨"/w"⟩ [⟨"a"⟩, ⟨"c/../b"⟩] ["k"] = digested ⟨"/"⟩ [⟨"/w//a"⟩, ⟨"w/b/."⟩] ["k"] := by
  constructor
  · intro h
    have hsame := (digested_tells_request (by decide) (by decide) (by decide) (by decide)).1 h
    exact absurd hsame.2 (by decide)
  · exact (digested_tells_request (by decide) (by decide) (by decide) (by decide)).2 (by decide)

/-- A path with a zero character is digested as two paths. -/
theorem zero_character_is_not_told :
    digested ⟨"/"⟩ [⟨"/a\x00/b"⟩] [] = digested ⟨"/"⟩ [⟨"/a"⟩, ⟨"/b"⟩] [] ∧
      [⟨"/a\x00/b"⟩].map (FilePath.normalize ⟨"/"⟩) ≠
        [⟨"/a"⟩, ⟨"/b"⟩].map (FilePath.normalize ⟨"/"⟩) := by
  decide +kernel

end Cache

/-! ## Keys -/

namespace Store

/-- The text can be the key of an entry: it has sixty-four hexadecimal digits. -/
def IsKey (key : String) : Prop := key.utf8ByteSize = 64 ∧ key.toList.all isHexDigit = true

instance (key : String) : Decidable (IsKey key) := inferInstanceAs (Decidable (_ ∧ _))

theorem utf8Size_of_isHexDigit {c : Char} (h : isHexDigit c = true) : c.utf8Size = 1 := by
  have hascii : c.val ≤ 127 := by
    simp only [isHexDigit, Char.isDigit, Bool.or_eq_true, Bool.and_eq_true, decide_eq_true_eq] at h
    rcases h with (⟨-, h⟩ | ⟨-, h⟩) | ⟨-, h⟩
    · exact UInt32.le_trans h (by decide)
    · exact UInt32.le_trans h (by decide)
    · exact UInt32.le_trans h (by decide)
  exact Char.utf8Size_eq_one_iff.2 hascii

/-- A text of characters of one byte has as many bytes as characters. -/
theorem utf8ByteSize_of_narrow {s : String} (h : ∀ c ∈ s.toList, c.utf8Size = 1) :
    s.utf8ByteSize = s.toList.length := by
  have hbytes : s.utf8ByteSize = (Text.octets s).length := rfl
  have hone : ∀ c ∈ s.toList, (String.utf8EncodeChar c).length = 1 := fun c hc => by
    rw [String.length_utf8EncodeChar, h c hc]
  rw [hbytes, Text.octets_eq, List.length_flatMap, List.map_congr_left hone]
  simp

/-- A digest is a key. -/
theorem isKey_hex (message : ByteArray) : IsKey (Sha256.hex message) := by
  have hdigit : ∀ n < 16, isHexDigit (Nat.digitChar n) = true := by decide
  have hall : ((Sha256.digest message).flatMap Sha256.hexByte).all isHexDigit = true := by
    rw [List.all_flatMap, List.all_eq_true]
    intro b _
    have hb := b.toNat_lt
    simp only [Sha256.hexByte, List.all_cons, List.all_nil, Bool.and_true, Bool.and_eq_true]
    exact ⟨hdigit _ (by omega), hdigit _ (by omega)⟩
  have hbytes : (Sha256.digest message).length = 32 := by
    simp [Sha256.digest, Sha256.bigEndian]
  have hlength : ((Sha256.digest message).flatMap Sha256.hexByte).length = 64 := by
    have htwo : ∀ b ∈ Sha256.digest message, (Sha256.hexByte b).length = 2 := fun _ _ => rfl
    rw [List.length_flatMap, List.map_congr_left htwo]
    simp [hbytes]
  have hdigits : (Sha256.hex message).toList.all isHexDigit = true := by
    rw [Sha256.hex, String.toList_ofList, hall]
  refine ⟨?_, hdigits⟩
  rw [utf8ByteSize_of_narrow fun c hc => utf8Size_of_isHexDigit (List.all_eq_true.1 hdigits c hc),
    Sha256.hex, String.toList_ofList, hlength]

theorem IsKey.nonempty {key : String} (h : IsKey key) : key.toList ≠ [] := by
  intro hempty
  have hsize := h.1
  rw [String.toList_eq_nil_iff.1 hempty] at hsize
  cases hsize

/-- The name of a key's file is a plain name. -/
theorem IsKey.plain {key : String} (h : IsKey key) : FilePath.Plain (key ++ ".yml") := by
  refine FilePath.plain_of_ending (c := 'l') (by decide) ?_ ?_
  · rw [String.toList_append, List.getLast?_append_of_ne_nil _ (by decide)]
    rfl
  · rw [String.toList_append, List.mem_append, not_or]
    refine ⟨fun hslash => ?_, by decide⟩
    exact absurd (List.all_eq_true.1 h.2 _ hslash) (by decide)

/-! ## Reading keys from names -/

/-- A name that is cut at a dot is what stands before it, the dot and what stands behind it. -/
theorem toList_of_cutName {name : String} {stem ending : List Char}
    (h : FilePath.cutName name = (stem, some ending)) : name.toList = stem ++ '.' :: ending := by
  unfold FilePath.cutName at h
  dsimp only at h
  split at h
  · cases h
  next hdot =>
    have hmem : '.' ∈ name.toList := by
      by_contra hnone
      exact hdot (by simp [hnone])
    obtain ⟨before, rest, hname, hbefore⟩ :=
      List.eq_append_cons_of_mem (List.mem_reverse.2 hmem)
    have hkept : ∀ c ∈ before, (c != '.') = true := fun c hc => by
      rw [bne_iff_ne]
      rintro rfl
      exact hbefore hc
    have hending : name.toList.reverse.takeWhile (· != '.') = before := by
      rw [hname, List.takeWhile_append_of_pos hkept, List.takeWhile_cons_of_neg (by simp),
        List.append_nil]
    have hwhole : name.toList = rest.reverse ++ '.' :: before.reverse := by
      rw [← List.reverse_reverse name.toList, hname]
      simp
    obtain ⟨hstem, hend⟩ := Prod.mk.inj h
    have hcount : name.toList.length - before.reverse.length - 1 = rest.reverse.length := by
      rw [hwhole]
      simp
      omega
    rw [hending, hcount, hwhole, List.take_left] at hstem
    rw [hending] at hend
    rw [hwhole, hstem, Option.some.inj hend]

/-- A key is read from the name of its file, and from no other name. -/
theorem keyOf?_join_iff {root : FilePath} (hroot : root.text ≠ "") {name key : String}
    (hname : FilePath.Plain name) :
    keyOf? (root.join ⟨name⟩) = some key ↔ IsKey key ∧ name = key ++ ".yml" := by
  have hyml : ".yml".toList = ['.', 'y', 'm', 'l'] := rfl
  have hkey : ∀ stem : String, (stem.utf8ByteSize == 64 && stem.toList.all isHexDigit) = true ↔
      IsKey stem := fun stem => by rw [Bool.and_eq_true, beq_iff_eq]; rfl
  rw [keyOf?, FilePath.ending?, FilePath.stem?, FilePath.fileName?_join hname hroot]
  simp only [Option.bind_some, Option.map_some]
  constructor
  · intro h
    split at h
    next hending =>
      obtain ⟨hvalid, hstem⟩ := Option.filter_eq_some_iff.1 h |>.symm
      obtain ⟨ending, hcut, hends⟩ := Option.map_eq_some_iff.1 (beq_iff_eq.1 hending)
      have hletters : ending = ['y', 'm', 'l'] := by
        rw [← String.toList_ofList (l := ending), hends]
        rfl
      have hparts := toList_of_cutName (Prod.ext rfl hcut)
      refine ⟨(hkey key).1 hvalid, String.toList_inj.1 ?_⟩
      rw [hparts, String.toList_append, hyml, hletters, ← Option.some.inj hstem,
        String.toList_ofList]
    · cases h
  · rintro ⟨hvalid, rfl⟩
    have hcut : FilePath.cutName (key ++ ".yml") = (key.toList, some ['y', 'm', 'l']) := by
      simp [FilePath.cutName, hyml, hvalid.nonempty]
    have hending : (some (String.ofList ['y', 'm', 'l']) == some "yml") = true := by decide
    simp only [hcut, Option.map_some, hending, if_true, String.ofList_toList]
    rw [Option.filter_some, if_pos ((hkey key).2 hvalid)]

end Store

end LayeredConfig

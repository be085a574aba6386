import ItemStore.Base64
import ItemStore.Proofs.Result
import ItemStore.Proofs.TextOrder

/-!
# Base64 texts and byte strings

The written form of byte strings is a bijection between them and the texts that are read
(`decode_eq_ok_iff`).  Both functions are compared with `Spells`, which tells group by group what
the text of a byte string is: the encoder writes such a text (`spells_encodeBytes`), and the
decoder reads what spells and nothing else (`decodeFrom_sound`, `Spells.decodeFrom_eq`).  The last
group, which is read byte by byte, keeps account of the bytes that it has taken (`written`).
-/

namespace ItemStore.Base64

variable {byte : UInt8} {start index offset n a b c d : Nat} {data text group : List UInt8}

/-- The text of a byte string: four symbols for three bytes, and a last group that is padded, the
bits that are left over being zero. -/
inductive Spells : List UInt8 → List UInt8 → Prop
  | nil : Spells [] []
  | one {a b : Nat} : a < 64 → b < 64 → b % 16 = 0 →
      Spells [symbol a, symbol b, pad, pad] [UInt8.ofNat (a * 4 + b / 16)]
  | two {a b c : Nat} : a < 64 → b < 64 → c < 64 → c % 4 = 0 →
      Spells [symbol a, symbol b, symbol c, pad]
        [UInt8.ofNat (a * 4 + b / 16), UInt8.ofNat (b % 16 * 16 + c / 4)]
  | more {a b c d : Nat} {text data : List UInt8} : a < 64 → b < 64 → c < 64 → d < 64 →
      Spells text data →
      Spells (symbol a :: symbol b :: symbol c :: symbol d :: text)
        (UInt8.ofNat (a * 4 + b / 16) :: UInt8.ofNat (b % 16 * 16 + c / 4) ::
          UInt8.ofNat (c % 4 * 64 + d) :: data)

/-! ## Symbols -/

theorem value?_eq_some_iff : value? byte = some n ↔ n < 64 ∧ byte = symbol n := by
  constructor
  · intro h
    have hlt := byte.toNat_lt
    rw [value?] at h
    simp only [symbol, ← UInt8.toNat_inj]
    split_ifs at h <;> cases h <;> refine ⟨by omega, ?_⟩ <;> split_ifs <;> simp <;> omega
  · rintro ⟨hn, rfl⟩
    revert n
    decide

theorem symbol_ne_pad (h : n < 64) : symbol n ≠ pad := by
  revert n
  decide

theorem readSymbol_eq_ok_iff :
    readSymbol byte offset = .ok n ↔ n < 64 ∧ byte = symbol n := by
  rw [← value?_eq_some_iff, readSymbol]
  cases value? byte <;> simp

/-! ## Writing -/

theorem toNat_ofNat (h : n < 256) : (UInt8.ofNat n).toNat = n := UInt8.toNat_ofNat_of_lt' h

theorem ofNat_eq {x : UInt8} (h : n = x.toNat) : UInt8.ofNat n = x := by
  rw [h, UInt8.ofNat_toNat]

theorem Spells.encodeBytes_eq (h : Spells text data) : encodeBytes data = text := by
  induction h with
  | nil => rfl
  | @one a b ha hb hrest =>
      have hfirst : (UInt8.ofNat (a * 4 + b / 16)).toNat = a * 4 + b / 16 :=
        toNat_ofNat (by omega)
      have htop : (a * 4 + b / 16) * 16 / 64 = a := by omega
      have hlow : (a * 4 + b / 16) * 16 % 64 = b := by omega
      simp only [encodeBytes, hfirst, htop, hlow]
  | @two a b c ha hb hc hrest =>
      have hfirst : (UInt8.ofNat (a * 4 + b / 16)).toNat = a * 4 + b / 16 :=
        toNat_ofNat (by omega)
      have hsecond : (UInt8.ofNat (b % 16 * 16 + c / 4)).toNat = b % 16 * 16 + c / 4 :=
        toNat_ofNat (by omega)
      have hnumber : ((a * 4 + b / 16) * 256 + (b % 16 * 16 + c / 4)) * 4 =
          (a * 64 + b) * 64 + c := by omega
      simp only [encodeBytes, hfirst, hsecond, hnumber]
      have htop : ((a * 64 + b) * 64 + c) / 4096 = a := by omega
      have hmiddle : ((a * 64 + b) * 64 + c) / 64 % 64 = b := by omega
      have hlow : ((a * 64 + b) * 64 + c) % 64 = c := by omega
      rw [htop, hmiddle, hlow]
  | @more a b c d text data ha hb hc hd _ ih =>
      have hfirst : (UInt8.ofNat (a * 4 + b / 16)).toNat = a * 4 + b / 16 :=
        toNat_ofNat (by omega)
      have hsecond : (UInt8.ofNat (b % 16 * 16 + c / 4)).toNat = b % 16 * 16 + c / 4 :=
        toNat_ofNat (by omega)
      have hthird : (UInt8.ofNat (c % 4 * 64 + d)).toNat = c % 4 * 64 + d :=
        toNat_ofNat (by omega)
      have hnumber : ((a * 4 + b / 16) * 256 + (b % 16 * 16 + c / 4)) * 256 + (c % 4 * 64 + d) =
          ((a * 64 + b) * 64 + c) * 64 + d := by omega
      simp only [encodeBytes, hfirst, hsecond, hthird, hnumber, ih]
      have h1 : (((a * 64 + b) * 64 + c) * 64 + d) / 262144 = a := by omega
      have h2 : (((a * 64 + b) * 64 + c) * 64 + d) / 4096 % 64 = b := by omega
      have h3 : (((a * 64 + b) * 64 + c) * 64 + d) / 64 % 64 = c := by omega
      have h4 : (((a * 64 + b) * 64 + c) * 64 + d) % 64 = d := by omega
      rw [h1, h2, h3, h4]

/-- Each byte string has a text. -/
theorem exists_spells (data : List UInt8) : ∃ text, Spells text data := by
  fun_induction encodeBytes data with
  | case1 => exact ⟨_, .nil⟩
  | case2 x =>
      have hx := x.toNat_lt
      have h := Spells.one (a := x.toNat / 4) (b := x.toNat % 4 * 16) (by omega) (by omega)
        (by omega)
      rw [ofNat_eq (x := x) (by omega)] at h
      exact ⟨_, h⟩
  | case3 x y =>
      have hx := x.toNat_lt
      have hy := y.toNat_lt
      have h := Spells.two (a := x.toNat / 4) (b := x.toNat % 4 * 16 + y.toNat / 16)
        (c := y.toNat % 16 * 4) (by omega) (by omega) (by omega) (by omega)
      rw [ofNat_eq (x := x) (by omega), ofNat_eq (x := y) (by omega)] at h
      exact ⟨_, h⟩
  | case4 x y z rest _ ih =>
      obtain ⟨text, htext⟩ := ih
      have hx := x.toNat_lt
      have hy := y.toNat_lt
      have hz := z.toNat_lt
      have h := htext.more (a := x.toNat / 4) (b := x.toNat % 4 * 16 + y.toNat / 16)
        (c := y.toNat % 16 * 4 + z.toNat / 64) (d := z.toNat % 64) (by omega) (by omega)
        (by omega) (by omega)
      rw [ofNat_eq (x := x) (by omega), ofNat_eq (x := y) (by omega),
        ofNat_eq (x := z) (by omega)] at h
      exact ⟨_, h⟩

theorem spells_encodeBytes (data : List UInt8) : Spells (encodeBytes data) data := by
  obtain ⟨text, h⟩ := exists_spells data
  rwa [h.encodeBytes_eq]

/-! ## The last group -/

namespace LastGroup

variable {g g' : LastGroup}

/-- The number of padding bytes. -/
def count (g : LastGroup) : Nat := (g.padding.map (·.2)).getD 0

/-- The bytes that have been read. -/
def written (g : LastGroup) : List UInt8 :=
  g.symbols.map (fun s => symbol s.2.2) ++ List.replicate g.count pad

/-- The symbols stand for numbers below 64. -/
def Sound (g : LastGroup) : Prop := ∀ s ∈ g.symbols, s.2.2 < 64

theorem push_sound (h : g.push index byte offset = .ok g') (hg : g.Sound) :
    g'.Sound ∧ g'.written = g.written ++ [byte] := by
  rw [push] at h
  split at h
  next hpad =>
    subst hpad
    split at h
    next => cases h
    next =>
      split at h <;> cases h
      next hnone => exact ⟨hg, by simp [written, count, hnone]⟩
      next hsome => exact ⟨hg, by simp [written, count, hsome, List.replicate_succ']⟩
  next =>
    split at h
    next => cases h
    next hnone =>
      obtain ⟨n, hn, h⟩ := bind_eq_ok_iff.mp h
      cases h
      obtain ⟨hlt, rfl⟩ := readSymbol_eq_ok_iff.mp hn
      refine ⟨?_, by simp [written, count, hnone]⟩
      intro s hs
      rcases List.mem_append.mp hs with hs | hs
      · exact hg s hs
      · rw [List.mem_singleton.mp hs]
        exact hlt

theorem read_sound (h : readLastGroup start g index group = .ok g') (hg : g.Sound) :
    g'.Sound ∧ g'.written = g.written ++ group := by
  induction group generalizing g index with
  | nil =>
      cases h
      exact ⟨hg, (List.append_nil _).symm⟩
  | cons byte rest ih =>
      obtain ⟨g₁, hpush, h⟩ := bind_eq_ok_iff.mp h
      obtain ⟨hg₁, hwritten₁⟩ := push_sound hpush hg
      obtain ⟨hg', hwritten⟩ := ih h hg₁
      refine ⟨hg', ?_⟩
      rw [hwritten, hwritten₁, List.append_assoc, List.singleton_append]

/-- A last group that has bytes spells them. -/
theorem bytes_sound (h : g.bytes start = .ok data) (hg : g.Sound) : Spells g.written data := by
  simp only [LastGroup.bytes] at h
  split at h
  next => cases h
  next =>
    split at h
    next => cases h
    next hcount =>
      have hcount : g.count = 4 - g.symbols.length := by
        rw [count]
        omega
      rw [written, hcount]
      split at h
      next hsymbols =>
        simp only [Sound, hsymbols, List.forall_mem_cons] at hg
        obtain ⟨ha, hb, -⟩ := hg
        rw [hsymbols]
        split at h
        next => cases h
        next hrest =>
          cases h
          exact .one ha hb (Decidable.not_not.mp hrest)
      next hsymbols =>
        simp only [Sound, hsymbols, List.forall_mem_cons] at hg
        obtain ⟨ha, hb, hc, -⟩ := hg
        rw [hsymbols]
        split at h
        next => cases h
        next hrest =>
          cases h
          exact .two ha hb hc (Decidable.not_not.mp hrest)
      next hsymbols =>
        simp only [Sound, hsymbols, List.forall_mem_cons] at hg
        obtain ⟨ha, hb, hc, hd, -⟩ := hg
        rw [hsymbols]
        cases h
        exact .more ha hb hc hd .nil
      next => cases h

end LastGroup

/-! ## Reading -/

theorem decodeFrom_sound (h : decodeFrom start text = .ok data) : Spells text data := by
  fun_induction decodeFrom start text generalizing data with
  | case1 =>
      cases h
      exact .nil
  | case2 start w x y z next rest ih =>
      simp only [bind_eq_ok_iff, readSymbol_eq_ok_iff] at h
      obtain ⟨a, ⟨ha, rfl⟩, b, ⟨hb, rfl⟩, c, ⟨hc, rfl⟩, d, ⟨hd, rfl⟩, tail, htail, hdata⟩ := h
      cases hdata
      exact .more ha hb hc hd (ih htail)
  | case3 start group =>
      obtain ⟨g, hg, h⟩ := bind_eq_ok_iff.mp h
      obtain ⟨hsound, hwritten⟩ := LastGroup.read_sound hg nofun
      rw [show group = g.written from hwritten.symm]
      exact LastGroup.bytes_sound h hsound

theorem readSymbol_symbol (h : n < 64) (offset : Nat) : readSymbol (symbol n) offset = .ok n :=
  readSymbol_eq_ok_iff.mpr ⟨h, rfl⟩

theorem Spells.decodeFrom_eq (h : Spells text data) (start : Nat) :
    decodeFrom start text = .ok data := by
  induction h generalizing start with
  | nil => rfl
  | @one a b ha hb hrest =>
      simp [decodeFrom, readLastGroup, LastGroup.push, LastGroup.bytes, symbol_ne_pad,
        readSymbol_symbol, ha, hb, hrest, bind, Except.bind]
  | @two a b c ha hb hc hrest =>
      simp [decodeFrom, readLastGroup, LastGroup.push, LastGroup.bytes, symbol_ne_pad,
        readSymbol_symbol, ha, hb, hc, hrest, bind, Except.bind]
  | @more a b c d text data ha hb hc hd htext ih =>
      cases text with
      | nil =>
          cases htext
          simp [decodeFrom, readLastGroup, LastGroup.push, LastGroup.bytes, symbol_ne_pad,
            readSymbol_symbol, ha, hb, hc, hd, bind, Except.bind]
      | cons next rest =>
          simp [decodeFrom, readSymbol_symbol, ha, hb, hc, hd, ih, bind, Except.bind]

theorem Spells.length_mod (h : Spells text data) : text.length % 4 = 0 := by
  induction h with
  | more _ _ _ _ _ ih =>
      simp only [List.length_cons]
      omega
  | _ => simp

theorem decodeBytes_eq_ok_iff : decodeBytes text = .ok data ↔ text = encodeBytes data := by
  constructor
  · intro h
    rw [decodeBytes] at h
    split at h
    next =>
      split at h
      next => cases h
      next => exact (decodeFrom_sound h).encodeBytes_eq.symm
    next hlast =>
      cases h
      exact List.getLast?_eq_none_iff.mp hlast
  · rintro rfl
    have hspells := spells_encodeBytes data
    rw [decodeBytes]
    split
    next =>
      have hmod := hspells.length_mod
      rw [if_neg (by omega), hspells.decodeFrom_eq]
    next hlast =>
      have hnil := List.getLast?_eq_none_iff.mp hlast
      rw [hnil] at hspells
      cases hspells
      rfl

/-! ## Texts -/

theorem Spells.ascii (h : Spells text data) : ∀ byte ∈ text, byte.toNat < 128 := by
  have hsymbol : ∀ n, n < 64 → (symbol n).toNat < 128 := by decide
  have hpad : pad.toNat < 128 := by decide
  induction h with
  | nil => nofun
  | one ha hb => simp [hsymbol, ha, hb, hpad]
  | two ha hb hc => simp [hsymbol, ha, hb, hc, hpad]
  | more ha hb hc hd _ ih => simpa [hsymbol, ha, hb, hc, hd] using ih

theorem encodeChar_ofNat (h : n < 128) :
    String.utf8EncodeChar (Char.ofNat n) = [UInt8.ofNat n] := by
  revert n
  decide

theorem bytes_encode (data : List UInt8) : Text.bytes (encode data) = encodeBytes data := by
  have hascii := (spells_encodeBytes data).ascii
  rw [Text.bytes_eq_flatMap, encode, String.toList_ofList]
  generalize encodeBytes data = text at hascii ⊢
  induction text with
  | nil => rfl
  | cons byte rest ih =>
      have hbyte := encodeChar_ofNat (hascii byte List.mem_cons_self)
      rw [List.map_cons, List.flatMap_cons, hbyte, UInt8.ofNat_toNat,
        ih fun b hb => hascii b (List.mem_cons_of_mem _ hb)]
      rfl

/-- A text is read exactly if it is the written form of the byte string. -/
theorem decode_eq_ok_iff {text : String} : decode text = .ok data ↔ text = encode data := by
  have hbytes : decode text = decodeBytes (Text.bytes text) := rfl
  rw [hbytes, decodeBytes_eq_ok_iff, ← bytes_encode, Text.bytes_inj]

end ItemStore.Base64

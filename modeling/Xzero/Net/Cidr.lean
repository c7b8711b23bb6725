import Mathlib.Data.BitVec

/-!
# CIDR networks

`xzero/net/Cidr.cc`: whether an address is in a network, `Cidr::contains`, on a little-endian host.
Addresses are kept in network order and compared as words of 32 bits, as the host reads them. A
shift by the width of a word and a word behind the address are undefined (`none`).

The mask takes the low bits of the word the host reads. These are the first bits in network order
only for whole bytes (`swap`). Besides, the network is compared with its host bits, in the first
case, and the address with its own, in the other. **The test is right for every address exactly if
the network is of IPv4, has a prefix of one to four bytes and no host bits** (`contains_iff`).
-/

namespace Xzero.Net

open List Option BitVec Function

/-- `IPAddress::V4` and `IPAddress::V6`. -/
inductive Family
  | v4 | v6
  deriving DecidableEq, Repr

/-- The number of bits of an address. -/
def Family.width : Family → ℕ
  | .v4 => 32
  | .v6 => 128

/-- `IPAddress`: the bytes are in network order; of an IPv4 address, the first four are used. -/
structure IPAddress where
  family : Family
  buf : Fin 16 → BitVec 8

structure Cidr where
  address : IPAddress
  prefixLen : ℕ

namespace IPAddress

def byte (a : IPAddress) (n : ℕ) : BitVec 8 := a.buf (Fin.ofNat 16 n)

/-- The bits of an address in network order. -/
def bit (a : IPAddress) (i : ℕ) : Bool := (a.byte (i / 8)).getLsbD (7 - i % 8)

/-- A word of an address, as a little-endian host reads it. -/
def word (a : IPAddress) (k : ℕ) : BitVec 32 :=
  a.byte (4 * k + 3) ++ a.byte (4 * k + 2) ++ a.byte (4 * k + 1) ++ a.byte (4 * k)

end IPAddress

/-- `0xFFFFFFFF >> n`. -/
def mask (n : ℕ) : Option (BitVec 32) :=
  if n < 32 then some (allOnes 32 >>> n) else none

/-- The loop over the words of the network and of the address, and the word that is left. -/
def containsWords : List (BitVec 32 × BitVec 32) → ℕ → Option Bool
  | [], _ => none
  | (word, input) :: rest, bits =>
    if 32 ≤ bits then
      if word ≠ input then some false else containsWords rest (bits - 32)
    else (mask (32 - bits)).map fun m ↦ decide (word &&& m = input)

namespace Cidr

/-- `contains`. In the case of IPv4, `32 - prefix()` is a `size_t`. -/
def contains (c : Cidr) (ipaddr : IPAddress) : Option Bool :=
  if ipaddr.family ≠ c.address.family then some false
  else
    match ipaddr.family with
    | .v4 => (mask ((2 ^ 64 + 32 - c.prefixLen) % 2 ^ 64)).map fun m ↦
        decide (ipaddr.word 0 &&& m = c.address.word 0)
    | .v6 =>
      containsWords ((range 4).map fun k ↦ (c.address.word k, ipaddr.word k)) c.prefixLen

/-- The addresses of the network: of its family, with the same first bits. -/
def Member (c : Cidr) (a : IPAddress) : Prop :=
  a.family = c.address.family ∧ ∀ i < c.prefixLen, a.bit i = c.address.bit i

instance (c : Cidr) (a : IPAddress) : Decidable (c.Member a) :=
  inferInstanceAs (Decidable (_ ∧ ∀ i < c.prefixLen, _))

end Cidr

/-! ### Bits of a word -/

/-- Where the bits of a word are in network order, and the other way round. -/
def swap (i : ℕ) : ℕ := 8 * (i / 8) + (7 - i % 8)

theorem swap_swap (i : ℕ) : swap (swap i) = i := by
  simp only [swap]
  omega

theorem swap_lt_iff (i m : ℕ) : swap i < 8 * m ↔ i < 8 * m := by
  simp only [swap]
  omega

namespace IPAddress

variable (a : IPAddress)

theorem getLsbD_word (k : ℕ) {j : ℕ} (hj : j < 32) :
    (a.word k).getLsbD j = (a.byte (4 * k + j / 8)).getLsbD (j % 8) := by
  rw [word, getLsbD_append, getLsbD_append, getLsbD_append]
  rcases (by omega : j / 8 = 0 ∨ j / 8 = 1 ∨ j / 8 = 2 ∨ j / 8 = 3) with h | h | h | h
  · rw [if_pos (by omega), h, Nat.add_zero, show j % 8 = j by omega]
  · rw [if_neg (by omega), if_pos (by omega), h, show j % 8 = j - 8 by omega]
  · rw [if_neg (by omega), if_neg (by omega), if_pos (by omega), h,
      show j % 8 = j - 8 - 8 by omega]
  · rw [if_neg (by omega), if_neg (by omega), if_neg (by omega), h,
      show j % 8 = j - 8 - 8 - 8 by omega]

theorem getLsbD_swap (k : ℕ) {i : ℕ} (hi : i < 32) :
    (a.word k).getLsbD (swap i) = a.bit (32 * k + i) := by
  have hlt : swap i < 32 := (swap_lt_iff i 4).2 hi
  have hbyte : 4 * k + swap i / 8 = (32 * k + i) / 8 := by
    simp only [swap]
    omega
  have hbit : swap i % 8 = 7 - (32 * k + i) % 8 := by
    simp only [swap]
    omega
  rw [getLsbD_word a k hlt, hbyte, hbit, bit]

def flip (i : ℕ) : IPAddress :=
  { a with
    buf := update a.buf (Fin.ofNat 16 (i / 8)) (a.byte (i / 8) ^^^ twoPow 8 (7 - i % 8)) }

theorem bit_flip {i i' : ℕ} (hi : i < 128) (hi' : i' < 128) :
    (a.flip i).bit i' = (a.bit i' ^^ decide (i' = i)) := by
  rw [bit, byte, flip]
  dsimp only
  by_cases hbyte : i' / 8 = i / 8
  · rw [hbyte, update_self, getLsbD_xor, getLsbD_twoPow, bit, hbyte]
    congr 1
    rw [Bool.eq_iff_iff]
    simp only [Bool.and_eq_true, decide_eq_true_eq]
    omega
  · have hne : Fin.ofNat 16 (i' / 8) ≠ Fin.ofNat 16 (i / 8) := by
      intro heq
      have hval := congrArg Fin.val heq
      simp only [Fin.val_ofNat] at hval
      omega
    have hii' : i' ≠ i := fun heq ↦ hbyte (by rw [heq])
    rw [update_of_ne hne, decide_eq_false hii', Bool.xor_false]
    rfl

end IPAddress

theorem mask_eq {n : ℕ} (hn : 0 < n) : mask (32 - n) = some (allOnes 32 >>> (32 - n)) :=
  if_pos (by omega)

theorem getLsbD_mask {n : ℕ} (hn : n ≤ 32) (j : ℕ) :
    (allOnes 32 >>> (32 - n)).getLsbD j = decide (j < n) := by
  rw [getLsbD_ushiftRight, getLsbD_allOnes]
  exact decide_eq_decide.2 (by omega)

/-- Two words, one of them masked, are equal when their bits are, in network order. -/
theorem word_and_mask_eq_iff (a w : IPAddress) (k : ℕ) {n : ℕ} (hn : n ≤ 32) :
    a.word k &&& allOnes 32 >>> (32 - n) = w.word k ↔
      ∀ i < 32, (a.bit (32 * k + i) && decide (swap i < n)) = w.bit (32 * k + i) := by
  constructor
  · intro heq i hi
    rw [← a.getLsbD_swap k hi, ← w.getLsbD_swap k hi, ← heq, getLsbD_and, getLsbD_mask hn]
  · intro hall
    refine eq_of_getLsbD_eq fun j hj ↦ ?_
    have hlt : swap j < 32 := (swap_lt_iff j 4).2 hj
    have hbit := hall (swap j) hlt
    rw [← a.getLsbD_swap k hlt, ← w.getLsbD_swap k hlt, swap_swap] at hbit
    rw [getLsbD_and, getLsbD_mask hn, hbit]

namespace Cidr

/-! ### Networks -/

/-- **IPv4.** The address with the bits that the mask takes is compared with the network. -/
theorem contains_v4 (c : Cidr) (a : IPAddress) (hc : c.address.family = .v4) (ha : a.family = .v4)
    (hpos : 0 < c.prefixLen) (hle : c.prefixLen ≤ 32) :
    ∃ r, c.contains a = some r ∧
      (r = true ↔ ∀ i < 32, (a.bit i && decide (swap i < c.prefixLen)) = c.address.bit i) := by
  have hshift : (2 ^ 64 + 32 - c.prefixLen) % 2 ^ 64 = 32 - c.prefixLen := by omega
  rw [contains, if_neg (by rw [ha, hc]; exact fun h ↦ h rfl), ha]
  rw [hshift, mask_eq hpos]
  have hiff := word_and_mask_eq_iff a c.address 0 hle
  simp only [Nat.mul_zero, Nat.zero_add] at hiff
  exact ⟨_, rfl, decide_eq_true_iff.trans hiff⟩

/-- **IPv6.** The last word that is compared is the one of the network that the mask leaves. -/
theorem containsWords_eq_true {ws : List (BitVec 32 × BitVec 32)} {bits : ℕ}
    (h : containsWords ws bits = some true) : bits % 32 ≠ 0 ∧ ∃ x ∈ ws[bits / 32]?,
      x.1 &&& allOnes 32 >>> (32 - bits % 32) = x.2 := by
  induction ws generalizing bits with
  | nil => cases h
  | cons x ws ih =>
    rw [containsWords] at h
    split at h
    · next hle =>
      split at h
      · cases h
      · obtain ⟨hne, y, hy, heq⟩ := ih h
        have hmod : (bits - 32) % 32 = bits % 32 := by omega
        have hdiv : bits / 32 = (bits - 32) / 32 + 1 := by omega
        rw [hmod] at hne heq
        rw [hdiv, getElem?_cons_succ]
        exact ⟨hne, y, hy, heq⟩
    · next hlt =>
      obtain ⟨m, hm, heq⟩ := map_eq_some_iff.1 h
      rw [mask] at hm
      split at hm
      · obtain rfl := some.inj hm
        have hdiv : bits / 32 = 0 := by omega
        have hmod : bits % 32 = bits := by omega
        rw [hdiv, hmod]
        exact ⟨by omega, x, rfl, of_decide_eq_true heq⟩
      · cases hm

theorem member_self (c : Cidr) : c.Member c.address := ⟨rfl, fun _ _ ↦ rfl⟩

theorem member_flip (c : Cidr) {i : ℕ} (hi : i < 128) (hle : c.prefixLen ≤ i) :
    c.Member (c.address.flip i) := by
  refine ⟨rfl, fun i' hi' ↦ ?_⟩
  rw [c.address.bit_flip hi (by omega), decide_eq_false (by omega), Bool.xor_false]

/-- The networks the test is right for: their prefix is one of whole bytes, and nothing is behind
it. -/
def Plain (c : Cidr) : Prop :=
  c.address.family = .v4 ∧ 0 < c.prefixLen ∧ c.prefixLen % 8 = 0 ∧
    ∀ i < 32, c.prefixLen ≤ i → c.address.bit i = false

theorem contains_of_plain {c : Cidr} (hle : c.prefixLen ≤ c.address.family.width) (hc : c.Plain)
    (a : IPAddress) : c.contains a = some (decide (c.Member a)) := by
  obtain ⟨hfamily, hpos, hbytes, hzero⟩ := hc
  rw [hfamily] at hle
  by_cases ha : a.family = c.address.family
  · rw [hfamily] at ha
    obtain ⟨r, hr, hiff⟩ := c.contains_v4 a hfamily ha hpos hle
    have hswap : ∀ i, swap i < c.prefixLen ↔ i < c.prefixLen := by
      intro i
      have heq : c.prefixLen = 8 * (c.prefixLen / 8) := by omega
      rw [heq]
      exact swap_lt_iff i _
    have hmember : r = true ↔ c.Member a := by
      rw [hiff]
      constructor
      · intro hall
        refine ⟨ha.trans hfamily.symm, fun i hi ↦ ?_⟩
        rw [← hall i (hi.trans_le hle), decide_eq_true ((hswap i).2 hi), Bool.and_true]
      · intro hmember i hi
        by_cases hlt : i < c.prefixLen
        · rw [decide_eq_true ((hswap i).2 hlt), Bool.and_true, hmember.2 i hlt]
        · rw [decide_eq_false (mt (hswap i).1 hlt), Bool.and_false,
            hzero i hi (Nat.le_of_not_lt hlt)]
    rw [hr, Bool.eq_iff_iff.2 (hmember.trans decide_eq_true_iff.symm)]
  · rw [contains, if_pos ha, decide_eq_false fun h ↦ ha h.1]

theorem plain_of_v4 {c : Cidr} (hfamily : c.address.family = .v4) (hle : c.prefixLen ≤ 32)
    (hall : ∀ a, c.contains a = some (decide (c.Member a))) : c.Plain := by
  have hmember : ∀ a, c.Member a → c.contains a = some true := fun a ha ↦ by
    rw [hall a, decide_eq_true ha]
  have hpos : 0 < c.prefixLen := by
    by_contra hzero
    have hnone : c.contains c.address = none := by
      rw [contains, if_neg (fun h ↦ h rfl), hfamily, Nat.eq_zero_of_not_pos hzero]
      rfl
    rw [hmember _ c.member_self] at hnone
    cases hnone
  have hbits : ∀ a, c.Member a → ∀ i < 32,
      (a.bit i && decide (swap i < c.prefixLen)) = c.address.bit i := by
    intro a hin
    obtain ⟨r, hr, hiff⟩ := c.contains_v4 a hfamily (hin.1.trans hfamily) hpos hle
    rw [hmember a hin] at hr
    exact hiff.1 (some.inj hr).symm
  have hswap : ∀ i < 32, c.address.bit i = true → swap i < c.prefixLen := by
    intro i hi htrue
    have heq := hbits _ c.member_self i hi
    rw [htrue, Bool.true_and] at heq
    exact of_decide_eq_true heq
  have hbytes : c.prefixLen % 8 = 0 := by
    by_contra hne
    -- the first bit of the mask in the last byte is behind the prefix in network order
    have hlast : 8 * (c.prefixLen / 8) + 7 < 128 := by omega
    have hflip := hbits _ (c.member_flip hlast (by omega)) _
      (show 8 * (c.prefixLen / 8) + 7 < 32 by omega)
    have hlt : swap (8 * (c.prefixLen / 8) + 7) < c.prefixLen := by
      simp only [swap]
      omega
    rw [c.address.bit_flip hlast hlast, decide_eq_true rfl, decide_eq_true hlt, Bool.xor_true,
      Bool.and_true] at hflip
    exact Bool.not_ne_self _ hflip
  refine ⟨hfamily, hpos, hbytes, fun i hi hbehind ↦ ?_⟩
  by_contra htrue
  have hlt := hswap i hi (by simpa using htrue)
  simp only [swap] at hlt
  omega

theorem not_v6 {c : Cidr} (hfamily : c.address.family = .v6) (hle : c.prefixLen ≤ 128)
    (hall : ∀ a, c.contains a = some (decide (c.Member a))) : False := by
  have hword : ∀ a, c.Member a → c.prefixLen % 32 ≠ 0 ∧
      ∀ i < 32, (c.address.bit (32 * (c.prefixLen / 32) + i) &&
        decide (swap i < c.prefixLen % 32)) = a.bit (32 * (c.prefixLen / 32) + i) := by
    intro a hin
    have htrue := hall a
    rw [decide_eq_true hin, contains, if_neg (fun h ↦ h hin.1), hin.1.trans hfamily] at htrue
    obtain ⟨hne, x, hx, heq⟩ := containsWords_eq_true htrue
    rw [getElem?_map, getElem?_range (by omega)] at hx
    obtain rfl := some.inj hx
    exact ⟨hne, (word_and_mask_eq_iff _ _ _ (by omega)).1 heq⟩
  obtain ⟨hne, hself⟩ := hword _ c.member_self
  have hlast : 32 * (c.prefixLen / 32) + 31 < 128 := by omega
  obtain ⟨-, hflip⟩ := hword _ (c.member_flip hlast (by omega))
  -- the last bit of the word cannot be both
  have heq := (hself 31 (by decide)).symm.trans (hflip 31 (by decide))
  rw [c.address.bit_flip hlast hlast, decide_eq_true rfl, Bool.xor_true] at heq
  exact Bool.not_ne_self _ heq.symm

/-- **Membership.** For a network whose prefix is no longer than its address, the test is right for
every address exactly if the network is of IPv4, the prefix is 8, 16, 24 or 32 bits long, and the
bits of the network behind the prefix are 0. -/
theorem contains_iff (c : Cidr) (hle : c.prefixLen ≤ c.address.family.width) :
    (∀ a, c.contains a = some (decide (c.Member a))) ↔ c.Plain := by
  refine ⟨fun hall ↦ ?_, contains_of_plain hle⟩
  cases hfamily : c.address.family with
  | v4 =>
    rw [hfamily] at hle
    exact plain_of_v4 hfamily hle hall
  | v6 =>
    rw [hfamily] at hle
    exact (not_v6 hfamily hle hall).elim

def ten : Cidr := ⟨⟨.v4, fun i ↦ if i = 0 then 10 else 0⟩, 8⟩

theorem contains_ten : ten.prefixLen ≤ ten.address.family.width ∧
    ∀ a, ten.contains a = some (decide (ten.Member a)) :=
  ⟨by decide, (contains_iff ten (by decide)).2 ⟨rfl, by decide, rfl, by decide⟩⟩

def nine : Cidr := ⟨⟨.v4, fun i ↦ if i = 0 then 10 else if i = 1 then 128 else 0⟩, 9⟩

/-- Not even its own address is in it. -/
theorem not_contains : ¬∀ (c : Cidr) (a : IPAddress), c.prefixLen ≤ c.address.family.width →
    c.contains a = some (decide (c.Member a)) := by
  intro hall
  have hself := hall nine nine.address (by decide)
  exact absurd hself (by decide)

end Cidr

end Xzero.Net

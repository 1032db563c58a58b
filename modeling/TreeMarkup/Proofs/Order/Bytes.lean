import Mathlib.Data.List.Lex
import Mathlib.Data.String.Basic

namespace TreeMarkup

def bytes (text : String) : List UInt8 :=
  text.toUTF8.data.toList

lemma bytes_eq (text : String) : bytes text = text.toList.flatMap String.utf8EncodeChar := by
  rw [bytes, String.toUTF8, ← String.utf8Encode_toList, List.utf8Encode, List.data_toByteArray]

/-- A code point and its bytes: a leading one, which tells how many follow, and six bits in each other. -/
inductive Encoded : Nat → List UInt8 → Prop
  | one {a : Nat} : a ≤ 127 → Encoded a [.ofNat a]
  | two {a b : Nat} : a < 32 → b < 64 → 127 < 64 * a + b →
      Encoded (64 * a + b) [.ofNat (a + 192), .ofNat (b + 128)]
  | three {a b c : Nat} : a < 16 → b < 64 → c < 64 → 2047 < 64 * (64 * a + b) + c →
      Encoded (64 * (64 * a + b) + c) [.ofNat (a + 224), .ofNat (b + 128), .ofNat (c + 128)]
  | four {a b c d : Nat} : a < 8 → b < 64 → c < 64 → d < 64 →
      65535 < 64 * (64 * (64 * a + b) + c) + d →
      Encoded (64 * (64 * (64 * a + b) + c) + d)
        [.ofNat (a + 240), .ofNat (b + 128), .ofNat (c + 128), .ofNat (d + 128)]

lemma encoded_char (c : Char) : Encoded c.val.toNat (String.utf8EncodeChar c) := by
  have hv : c.val.toNat < 1114112 := c.valid.elim (by omega) (by omega)
  have hmod : ∀ n, n % 64 < 64 := fun n => Nat.mod_lt n (by omega)
  rw [String.utf8EncodeChar]
  generalize c.val.toNat = v at hv
  by_cases h1 : v ≤ 127
  · rw [if_pos h1]
    exact .one h1
  by_cases h2 : v ≤ 2047
  · rw [if_neg h1, if_pos h2]
    have he : 64 * (v / 64 % 32) + v % 64 = v := by omega
    have hc := Encoded.two (Nat.mod_lt (v / 64) (by omega)) (hmod v) (by omega)
    rwa [he] at hc
  by_cases h3 : v ≤ 65535
  · rw [if_neg h1, if_neg h2, if_pos h3]
    have he : 64 * (64 * (v / 4096 % 16) + v / 64 % 64) + v % 64 = v := by omega
    have hc := Encoded.three (Nat.mod_lt (v / 4096) (by omega)) (hmod (v / 64)) (hmod v) (by omega)
    rwa [he] at hc
  · rw [if_neg h1, if_neg h2, if_neg h3]
    have he : 64 * (64 * (64 * (v / 262144 % 8) + v / 4096 % 64) + v / 64 % 64) + v % 64 = v := by
      omega
    have hc := Encoded.four (Nat.mod_lt (v / 262144) (by omega)) (hmod (v / 4096)) (hmod (v / 64))
      (hmod v) (by omega)
    rwa [he] at hc

lemma byte_lt {m n : Nat} (h : m < n) (hn : n < 256) : UInt8.ofNat m < UInt8.ofNat n := by
  rw [UInt8.lt_iff_toNat_lt, UInt8.toNat_ofNat', UInt8.toNat_ofNat']
  omega

lemma Encoded.lt {v w : Nat} {as bs : List UInt8} (ha : Encoded v as) (hb : Encoded w bs) (h : v < w)
    (xs ys : List UInt8) : as ++ xs < bs ++ ys := by
  cases ha <;> cases hb
  case one.one => exact .rel (byte_lt h (by omega))
  case one.two | one.three | one.four | two.three | two.four | three.four =>
    exact .rel (byte_lt (by omega) (by omega))
  case two.one | three.one | four.one | three.two | four.two | four.three => omega
  case two.two a b _ _ _ a' b' _ _ _ =>
    have hdigits : a < a' ∨ a = a' ∧ b < b' := by omega
    rcases hdigits with ha | ⟨rfl, hb⟩
    · exact .rel (byte_lt (by omega) (by omega))
    · exact .cons (.rel (byte_lt (by omega) (by omega)))
  case three.three a b c _ _ _ _ a' b' c' _ _ _ _ =>
    have hdigits : a < a' ∨ a = a' ∧ (b < b' ∨ b = b' ∧ c < c') := by omega
    rcases hdigits with ha | ⟨rfl, hb | ⟨rfl, hc⟩⟩
    · exact .rel (byte_lt (by omega) (by omega))
    · exact .cons (.rel (byte_lt (by omega) (by omega)))
    · exact .cons (.cons (.rel (byte_lt (by omega) (by omega))))
  case four.four a b c d _ _ _ _ _ a' b' c' d' _ _ _ _ _ =>
    have hdigits : a < a' ∨ a = a' ∧ (b < b' ∨ b = b' ∧ (c < c' ∨ c = c' ∧ d < d')) := by omega
    rcases hdigits with ha | ⟨rfl, hb | ⟨rfl, hc | ⟨rfl, hd⟩⟩⟩
    · exact .rel (byte_lt (by omega) (by omega))
    · exact .cons (.rel (byte_lt (by omega) (by omega)))
    · exact .cons (.cons (.rel (byte_lt (by omega) (by omega))))
    · exact .cons (.cons (.cons (.rel (byte_lt (by omega) (by omega)))))

lemma utf8EncodeChar_ne_nil (c : Char) : String.utf8EncodeChar c ≠ [] := by
  intro h
  have hlen := String.length_utf8EncodeChar c
  rw [h, List.length_nil] at hlen
  exact absurd hlen (Nat.ne_of_lt c.utf8Size_pos)

lemma flatMap_lt {cs ds : List Char} (h : cs < ds) :
    cs.flatMap String.utf8EncodeChar < ds.flatMap String.utf8EncodeChar := by
  induction h with
  | @nil d ds =>
    rw [List.flatMap_nil, List.flatMap_cons]
    obtain ⟨b, bs, hb⟩ := List.exists_cons_of_ne_nil (utf8EncodeChar_ne_nil d)
    rw [hb]
    exact .nil
  | @rel c cs d ds hcd => exact (encoded_char c).lt (encoded_char d) hcd _ _
  | cons _ ih => exact List.append_left_lt ih

lemma bytes_lt_iff {s t : String} : bytes s < bytes t ↔ s < t := by
  have hmono : ∀ {s t : String}, s < t → bytes s < bytes t := by
    intro s t h
    rw [bytes_eq, bytes_eq]
    exact flatMap_lt (String.lt_iff.mp h)
  refine ⟨fun h => ?_, hmono⟩
  rcases lt_trichotomy s t with hst | rfl | hts
  · exact hst
  · exact absurd h (List.lt_irrefl _)
  · exact absurd h (List.lt_asymm (hmono hts))

lemma bytes_lt_eq : (fun s t => bytes s < bytes t) = fun s t : String => s < t :=
  funext fun _ => funext fun _ => propext bytes_lt_iff

end TreeMarkup

import TreeMarkup.Proofs.Markup.Reader

namespace TreeMarkup.Markup

def Solid (text : String) : Prop :=
  OneLine text ∧ text.toList.dropWhile isBlank = text.toList

section Solid

lemma IsName.oneLine {name : String} (h : IsName name) : OneLine name := by
  intro hm
  exact absurd (h.2 _ hm) (by decide)

lemma solid_of_head {text : String} (h : OneLine text) {c : Char} {cs : List Char}
    (ht : text.toList = c :: cs) (hb : isBlank c = false) : Solid text := by
  refine ⟨h, ?_⟩
  rw [ht, List.dropWhile_cons_of_neg (by simp [hb])]

lemma solid_name {name rest : String} (h : IsName name) (hr : OneLine rest) :
    Solid (name ++ rest) := by
  obtain ⟨c, cs, hc, hn⟩ := h.toList_eq_cons
  have hb : isBlank c = false := by
    simp only [isNameChar, isSign, Bool.not_eq_true', Bool.or_eq_false_iff] at hn
    exact hn.1
  have ht : (name ++ rest).toList = c :: (cs ++ rest.toList) := by simp [hc]
  exact solid_of_head (OneLine.append.mpr ⟨h.oneLine, hr⟩) ht hb

lemma solid_open {text : String} (h : OneLine text) : Solid ("<" ++ text) := by
  have ho : OneLine "<" := by simp [OneLine]
  have ht : ("<" ++ text).toList = '<' :: text.toList := by simp
  exact solid_of_head (OneLine.append.mpr ⟨ho, h⟩) ht (by decide)

lemma solid_close {name : String} (h : IsName name) : Solid ("</" ++ name ++ ">") := by
  have ho : OneLine "</" := by simp [OneLine]
  have hc : OneLine ">" := by simp [OneLine]
  have ht : ("</" ++ name ++ ">").toList = '<' :: '/' :: (name.toList ++ ['>']) := by simp
  exact solid_of_head (OneLine.append.mpr ⟨OneLine.append.mpr ⟨ho, h.oneLine⟩, hc⟩) ht (by decide)

lemma solid_braced {key text : String} (h : IsName key) (ht : OneLine text) :
    Solid (braced key text) := by
  have ho : OneLine "=\x7b" := by simp [OneLine]
  have hc : OneLine "\x7d" := by simp [OneLine]
  have hs := solid_name h (OneLine.append.mpr ⟨OneLine.append.mpr ⟨ho, ht⟩, hc⟩)
  simpa only [braced, String.append_assoc] using hs

lemma solid_ending {text : String} (h : text = "/>" ∨ text = ">" ∨ text = "\x7d") : Solid text := by
  rcases h with rfl | rfl | rfl
  · have ht : "/>".toList = ['/', '>'] := by simp
    exact solid_of_head (by simp [OneLine]) ht (by decide)
  · have ht : ">".toList = ['>'] := by simp
    exact solid_of_head (by simp [OneLine]) ht (by decide)
  · have ht : "\x7d".toList = ['\x7d'] := by simp
    exact solid_of_head (by simp [OneLine]) ht (by decide)

lemma solid_tagLines {depth : Nat} {name ending : String} {attributes : List Line}
    (hn : IsName name) (ha : ∀ line ∈ attributes, Solid line.2)
    (he : ending = "/>" ∨ ending = ">" ∨ ending = "\x7d") :
    ∀ line ∈ tagLines depth name attributes ending, Solid line.2 := by
  intro line hl
  have hs := solid_ending he
  rw [tagLines] at hl
  split at hl
  · rw [List.mem_singleton] at hl
    subst hl
    simp only [String.append_assoc]
    exact solid_open (OneLine.append.mpr ⟨hn.oneLine, hs.1⟩)
  · rcases List.mem_cons.mp hl with rfl | hl
    · exact solid_open hn.oneLine
    · rcases List.mem_append.mp hl with hl | hl
      · exact ha line hl
      · rw [List.mem_singleton] at hl
        subst hl
        exact hs

mutual

lemma solid_lines : ∀ (e : Element), e.Clear → ∀ (depth : Nat), ∀ line ∈ e.lines depth, Solid line.2
  | ⟨name, attributes, none⟩, hc, depth, line, hl => by
    rw [Element.lines] at hl
    exact solid_tagLines hc.1 (solid_attributeLines attributes hc.2 (depth + 1)) (Or.inl rfl) line hl
  | ⟨name, attributes, some children⟩, hc, depth, line, hl => by
    obtain ⟨hn, ha, hk⟩ := hc
    rw [Element.lines] at hl
    rcases List.mem_append.mp hl with hl | hl
    · exact solid_tagLines hn (solid_attributeLines attributes ha (depth + 1)) (Or.inr (Or.inl rfl))
        line hl
    · rcases List.mem_append.mp hl with hl | hl
      · exact solid_childLines children hk (depth + 1) line hl
      · rw [List.mem_singleton] at hl
        subst hl
        exact solid_close hn

lemma solid_attributeLines : ∀ (attributes : List (String × Form Element)),
    Element.ClearAttributes attributes → ∀ (depth : Nat),
    ∀ line ∈ Element.attributeLines depth attributes, Solid line.2
  | [], _, _, line, hl => by simp [Element.attributeLines] at hl
  | (key, form) :: rest, hc, depth, line, hl => by
    obtain ⟨⟨hk, hf⟩, hr⟩ := hc
    rw [Element.attributeLines] at hl
    rcases List.mem_append.mp hl with hl | hl
    · exact solid_formLines form hf hk depth line hl
    · exact solid_attributeLines rest hr depth line hl

lemma solid_formLines : ∀ (form : Form Element) {key : String}, Element.ClearForm key form →
    IsName key → ∀ (depth : Nat), ∀ line ∈ Element.formLines depth key form, Solid line.2
  | .bare, key, _, hk, depth, line, hl => by
    rw [Element.formLines, List.mem_singleton] at hl
    subst hl
    have hs := solid_name hk (by simp [OneLine] : OneLine "")
    rwa [String.append_empty] at hs
  | .text escaped, key, hf, hk, depth, line, hl => by
    rw [Element.formLines, List.mem_singleton] at hl
    subst hl
    have hq : OneLine "=\"" := by simp [OneLine]
    have he : OneLine "\"" := by simp [OneLine]
    have hs := solid_name hk (OneLine.append.mpr ⟨OneLine.append.mpr ⟨hq, hf⟩, he⟩)
    simpa only [String.append_assoc] using hs
  | .literal text, key, hf, hk, depth, line, hl => by
    rw [Element.formLines, List.mem_singleton] at hl
    subst hl
    exact solid_braced hk hf.1
  | .reference component, key, hf, hk, depth, line, hl => by
    rw [Element.formLines, List.mem_singleton] at hl
    subst hl
    exact solid_braced hk hf.1.oneLine
  | .block inner, key, hf, hk, depth, line, hl => by
    rw [Element.formLines] at hl
    rcases List.mem_cons.mp hl with rfl | hl
    · exact solid_name hk (by simp [OneLine])
    · rcases List.mem_append.mp hl with hl | hl
      · exact solid_lines inner hf (depth + 1) line hl
      · rw [List.mem_singleton] at hl
        subst hl
        exact solid_ending (Or.inr (Or.inr rfl))

lemma solid_childLines : ∀ (children : List Element), Element.ClearChildren children →
    ∀ (depth : Nat), ∀ line ∈ Element.childLines depth children, Solid line.2
  | [], _, _, line, hl => by simp [Element.childLines] at hl
  | child :: rest, hc, depth, line, hl => by
    rw [Element.childLines] at hl
    rcases List.mem_append.mp hl with hl | hl
    · exact solid_lines child hc.1 depth line hl
    · exact solid_childLines rest hc.2 depth line hl

end

end Solid

section Layout

variable {indent : String} (hi : ∀ c ∈ indent.toList, isBlank c = true)

include hi

lemma blank_repeated (n : Nat) : ∀ c ∈ (repeated indent n).toList, isBlank c = true := by
  intro c hc
  induction n with
  | zero => simp [repeated] at hc
  | succ n ih =>
    have hr : repeated indent (n + 1) = indent ++ repeated indent n := by
      simp [repeated, List.replicate_succ]
    rw [hr, String.toList_append] at hc
    rcases List.mem_append.mp hc with hc | hc
    · exact hi c hc
    · exact ih hc

lemma not_mem_indented {line : Line} (h : Solid line.2) : '\n' ∉ (indented indent line).toList := by
  intro hm
  rw [indented, String.toList_append] at hm
  rcases List.mem_append.mp hm with hm | hm
  · exact absurd (blank_repeated hi line.1 _ hm) (by decide)
  · exact h.1 hm

lemma dropWhile_indented {line : Line} (h : Solid line.2) :
    (indented indent line).toList.dropWhile isBlank = line.2.toList := by
  rw [indented, String.toList_append, List.dropWhile_append_of_pos (blank_repeated hi line.1)]
  exact h.2

lemma lines_layout {lines : List Line} (hne : lines ≠ []) (hs : ∀ line ∈ lines, Solid line.2) :
    ((layout indent lines).toList.splitOn '\n').map (fun line => line.dropWhile isBlank) =
      Reader.contents lines := by
  have hn : ∀ l ∈ lines.map fun line => (indented indent line).toList, '\n' ∉ l := by
    intro l hl
    obtain ⟨line, hm, rfl⟩ := List.mem_map.mp hl
    exact not_mem_indented hi (hs line hm)
  have hl : (layout indent lines).toList =
      List.intercalate ['\n'] (lines.map fun line => (indented indent line).toList) := by
    simp [layout, String.toList_intercalate, Function.comp_def]
  rw [hl, List.splitOn_intercalate '\n' hn (by simpa using hne), List.map_map, Reader.contents]
  exact List.map_congr_left fun line hm => dropWhile_indented hi (hs line hm)

lemma read_layout {e : Element} (hc : e.Clear) : read (layout indent (e.lines 0)) = some (some e) := by
  have hne := Element.layout_lines_ne_empty indent 0 e
  have hl := lines_layout hi (Element.lines_ne_nil 0 e) (solid_lines e hc 0)
  have hr := Reader.steps_lines e hc 0 (show Reader.IsOpen [.block "" none] from trivial)
  rw [read, if_neg (by simpa using hne), hl, hr]
  rfl

end Layout

lemma read_empty : read "" = some none := rfl

end TreeMarkup.Markup

import AetherOptExt.AutoAllocation
import AetherOptExt.CpuListGrammar

/-! # Tracepoint format files (`bpf.rs`)

The kernel describes the record of a tracepoint in a text file with one line a field.
`tracepointParse` reads the offsets of the fields from such a text, and `injectedOffsets` are
the three that `offsets_inject` hands to the BPF programs.

A `FieldLine` is what the kernel writes: a declaration of any type and a name, perhaps with an
array length, then the offset, the size and the sign in any order, with white space around
everything.  On files made of such lines and of others the parser returns the offset of every
field under its name (`tracepointParse_text`): the declaration is the first piece of the line,
its last word is the name up to a bracket, and one of the other pieces is the offset. -/

namespace AetherOptExt

open Str

/-! ### The parser -/

/-- A line without the carriage return at its end. -/
def stripCr (line : Str) : Str := if line.getLast? = some '\r' then line.dropLast else line

/-- `str::lines`: what follows the last newline is a line when it is not empty. -/
def lines (s : Str) : List Str :=
  let pieces := s.splitOn '\n'
  pieces.dropLast.map stripCr ++ pieces.getLast?.toList.filter (fun line => !line.isEmpty)

/-- `str::strip_prefix`. -/
def stripPrefix (pre s : Str) : Option Str := if pre.isPrefixOf s then some (s.drop pre.length) else none

/-- The name in a declaration: its last word up to a bracket. -/
def fieldName (part : Str) : Str := splitFirst '[' ((splitWhitespace part).getLast?.getD [])

/-- The offset that a part states. -/
def partOffset (part : Str) : Option ℕ :=
  (stripPrefix "offset:".toList part).bind (fun s => parseU32 (trim s))

/-- One line of the file. -/
def fieldLine (offsets : KeyMap Str ℕ) (line : Str) : KeyMap Str ℕ :=
  match stripPrefix "field:".toList (trim line) with
  | none => offsets
  | some rest =>
      match (rest.splitOn ';').map trim with
      | first :: second :: others =>
          let name := fieldName first
          if name.isEmpty then offsets
          else match (second :: others).findSome? partOffset with
            | some off => offsets.insert name off
            | none => offsets
      | _ => offsets

/-- `tracepoint_parse`; `content` is the text of the format file. -/
def tracepointParse (content : Option Str) : Option (KeyMap Str ℕ) :=
  content.map (fun content => (lines content).foldl fieldLine ∅)

/-- The offsets that `offsets_inject` writes to the map, from the format files of
`sched_process_fork` and `task_rename`. -/
def injectedOffsets (fork rename : Option Str) : Option TracepointOffsets := do
  let forkFields ← tracepointParse fork
  let renameFields ← tracepointParse rename
  let pid ← forkFields.lookup "child_pid".toList
  let comm ← forkFields.lookup "child_comm".toList
  let newcomm ← renameFields.lookup "newcomm".toList
  pure ⟨BitVec.ofNat 32 pid, BitVec.ofNat 32 comm, BitVec.ofNat 32 newcomm⟩

/-! ### The format -/

/-- White space within a line. -/
def Gap (s : Str) : Prop := ∀ c ∈ s, isWhitespace c = true ∧ c ≠ '\n'

instance (s : Str) : Decidable (Gap s) := List.decidableBAll (fun c => isWhitespace c = true ∧ c ≠ '\n') s

theorem Gap.blank {s : Str} (h : Gap s) : Blank s := fun c hc => (h c hc).1

/-- Text without line ends and semicolons. -/
def Inline (s : Str) : Prop := '\n' ∉ s ∧ ';' ∉ s

instance (s : Str) : Decidable (Inline s) := inferInstanceAs (Decidable (_ ∧ _))

theorem Inline.append {s t : Str} (hs : Inline s) (ht : Inline t) : Inline (s ++ t) :=
  ⟨fun h => (List.mem_append.mp h).elim hs.1 ht.1, fun h => (List.mem_append.mp h).elim hs.2 ht.2⟩

theorem Gap.inline {s : Str} (h : Gap s) : Inline s :=
  ⟨fun hc => (h _ hc).2 rfl, fun hc => absurd (h _ hc).1 (by decide)⟩

/-- Text that is part of a word. -/
def Wordy (s : Str) : Prop := ∀ c ∈ s, isWhitespace c = false ∧ c ≠ ';'

instance (s : Str) : Decidable (Wordy s) := List.decidableBAll (fun c => isWhitespace c = false ∧ c ≠ ';') s

theorem Wordy.inline {s : Str} (h : Wordy s) : Inline s :=
  ⟨fun hc => absurd (h _ hc).1 (by decide), fun hc => (h _ hc).2 rfl⟩

theorem inline_digits (n : Numeral) : Inline n.digits := ⟨n.notMem rfl, n.notMem rfl⟩

/-- What follows the declaration. -/
inductive Attribute where
  | offset
  | size
  | signed
deriving DecidableEq

/-- A line that describes a field. -/
structure FieldLine where
  indent : Str
  typeText : Str
  gap : Str
  name : Str
  array : Option Str
  pad : Str
  offset : Numeral
  offsetPad : Str
  size : Str
  signed : Str
  /-- The attributes in their order, each with the white space before and after it. -/
  attributes : List (Str × Attribute × Str)
  trail : Str
  indent_gap : Gap indent
  type_inline : Inline typeText
  gap_gap : Gap gap
  gap_ne : gap ≠ []
  name_ne : name ≠ []
  name_wordy : Wordy name
  name_plain : '[' ∉ name
  array_wordy : ∀ len ∈ array, Wordy len
  pad_gap : Gap pad
  offset_small : offset.value < 2 ^ 32
  offsetPad_gap : Gap offsetPad
  size_inline : Inline size
  signed_inline : Inline signed
  attributes_all : (attributes.map (fun a => a.2.1)).Perm [.offset, .size, .signed]
  attributes_gap : ∀ a ∈ attributes, Gap a.1 ∧ Gap a.2.2
  trail_gap : Gap trail

namespace FieldLine

variable (f : FieldLine)

/-- The name with its array length. -/
def declarator : Str := f.name ++ (f.array.map (fun len => '[' :: (len ++ [']']))).getD []

/-- The declaration. -/
def declaration : Str := f.typeText ++ (f.gap ++ f.declarator) ++ f.pad

/-- The text of an attribute. -/
def attributeText : Attribute → Str
  | .offset => "offset:".toList ++ (f.offsetPad ++ f.offset.digits)
  | .size => "size:".toList ++ f.size
  | .signed => "signed:".toList ++ f.signed

/-- An attribute with its white space. -/
def padded (a : Str × Attribute × Str) : Str := a.1 ++ f.attributeText a.2.1 ++ a.2.2

/-- The pieces of the line that end with a semicolon. -/
def pieces : List Str := f.declaration :: f.attributes.map f.padded

/-- The line. -/
def text : Str := f.indent ++ ("field:".toList ++ f.pieces.flatMap (fun p => p ++ [';'])) ++ f.trail

end FieldLine

/-- A line of a format file. -/
inductive FormatLine where
  | field (f : FieldLine)
  | other (line : Str) (oneLine : '\n' ∉ line) (noField : ¬ "field:".toList <+: trim line)

/-- The text of a line. -/
def FormatLine.text : FormatLine → Str
  | field f => f.text
  | other line _ _ => line

/-- The field of a line. -/
def FormatLine.field? : FormatLine → Option FieldLine
  | field f => some f
  | other .. => none

/-- The text of a file. -/
def formatText (ls : List FormatLine) : Str := ['\n'].intercalate (ls.map FormatLine.text)

/-- The fields of a file. -/
def formatFields (ls : List FormatLine) : List FieldLine := ls.filterMap FormatLine.field?

/-! ### Lines -/

theorem trim_stripCr (line : Str) : trim (stripCr line) = trim line := by
  unfold stripCr
  split_ifs with h
  · obtain ⟨init, rfl⟩ := List.getLast?_eq_some_iff.mp h
    rw [List.dropLast_concat]
    have hpad : trim ([] ++ init ++ ['\r']) = trim init := trim_padded (fun c hc => absurd hc List.not_mem_nil) (by decide)
    exact hpad.symm
  · rfl

theorem fieldLine_congr {line line' : Str} (h : trim line = trim line') (m : KeyMap Str ℕ) :
    fieldLine m line = fieldLine m line' := by
  unfold fieldLine
  rw [h]

/-- The ends of the lines do not matter. -/
theorem foldl_lines (s : Str) (m : KeyMap Str ℕ) : (lines s).foldl fieldLine m = (s.splitOn '\n').foldl fieldLine m := by
  obtain ⟨init, last, hs⟩ : ∃ init last, s.splitOn '\n' = init ++ [last] := by
    rw [← List.dropLast_append_getLast (List.splitOn_ne_nil '\n' s)]
    exact ⟨_, _, rfl⟩
  have hcr : ∀ m, (init.map stripCr).foldl fieldLine m = init.foldl fieldLine m := by
    intro m
    rw [List.foldl_map]
    have hstep : (fun (m : KeyMap Str ℕ) line => fieldLine m (stripCr line)) = fieldLine :=
      funext fun m => funext fun line => fieldLine_congr (trim_stripCr line) m
    rw [hstep]
  unfold lines
  simp only [hs, List.dropLast_concat, List.getLast?_concat, Option.toList_some, List.foldl_append, hcr]
  cases last with
  | nil => rfl
  | cons c last => rfl

/-! ### A field line -/

theorem stripPrefix_append (pre s : Str) : stripPrefix pre (pre ++ s) = some s := by
  have h : pre.isPrefixOf (pre ++ s) = true := List.isPrefixOf_iff_prefix.mpr (List.prefix_append pre s)
  unfold stripPrefix
  rw [if_pos h, List.drop_left]

theorem parseU32_numeral (n : Numeral) (h : n.value < 2 ^ 32) : parseU32 n.digits = some n.value := by
  have hmax : n.value ≤ usizeMax := h.le.trans (by decide)
  unfold parseU32
  rw [parseUsize_numeral n hmax, Option.filter_some, if_pos (decide_eq_true h)]

theorem getLast?_terminated {ps : List Str} (h : ps ≠ []) (c : Char) :
    (ps.flatMap (fun p => p ++ [c])).getLast? = some c := by
  rw [← List.dropLast_append_getLast h, List.flatMap_append, List.flatMap_singleton, ← List.append_assoc,
    List.getLast?_concat]

namespace FieldLine

variable (f : FieldLine)

/-- The line without the white space around it. -/
theorem trim_text : trim f.text = "field:".toList ++ f.pieces.flatMap (fun p => p ++ [';']) := by
  have hlast : (f.pieces.flatMap (fun p => p ++ [';'])).getLast? = some ';' :=
    getLast?_terminated (List.cons_ne_nil _ _) ';'
  unfold text
  rw [trim_padded f.indent_gap.blank f.trail_gap.blank]
  refine trim_of_ends (fun c hc => ?_) (fun c hc => ?_)
  · obtain rfl := Option.some.inj hc
    decide
  · rw [List.getLast?_append, hlast] at hc
    obtain rfl := Option.some.inj hc
    decide

theorem declarator_wordy : Wordy f.declarator := by
  intro c hc
  unfold declarator at hc
  rcases List.mem_append.mp hc with hc | hc
  · exact f.name_wordy c hc
  · cases ha : f.array with
    | none => simp [ha] at hc
    | some len =>
        rw [ha] at hc
        rcases List.mem_cons.mp hc with rfl | hc
        · decide
        · rcases List.mem_append.mp hc with hc | hc
          · exact f.array_wordy len ha c hc
          · rw [List.mem_singleton.mp hc]
            decide

theorem inline_attributeText : ∀ k, Inline (f.attributeText k)
  | .offset => by
      have hkey : Inline "offset:".toList := by decide
      exact hkey.append (f.offsetPad_gap.inline.append (inline_digits f.offset))
  | .size => by
      have hkey : Inline "size:".toList := by decide
      exact hkey.append f.size_inline
  | .signed => by
      have hkey : Inline "signed:".toList := by decide
      exact hkey.append f.signed_inline

theorem inline_pieces : ∀ p ∈ f.pieces, Inline p := by
  intro p hp
  cases List.mem_cons.mp hp with
  | inl h =>
      rw [h]
      exact (f.type_inline.append (f.gap_gap.inline.append f.declarator_wordy.inline)).append f.pad_gap.inline
  | inr h =>
      obtain ⟨a, ha, rfl⟩ := List.mem_map.mp h
      obtain ⟨hbefore, hafter⟩ := f.attributes_gap a ha
      exact (hbefore.inline.append (f.inline_attributeText a.2.1)).append hafter.inline

/-- The last word of the declaration is the name with its array length. -/
theorem fieldName_declaration : fieldName (trim f.declaration) = f.name := by
  have hne : f.declarator ≠ [] := by
    unfold declarator
    simp [f.name_ne]
  have hword : words isWhitespace f.declarator = [f.declarator] :=
    words_self (fun c hc => (f.declarator_wordy c hc).1) hne
  have hwords : splitWhitespace (trim f.declaration) = words isWhitespace f.typeText ++ [f.declarator] := by
    show words isWhitespace (trim f.declaration) = _
    rw [words_trim fun _ _ => id, declaration, words_append_separators f.pad_gap.blank]
    obtain ⟨c, gap, hgap⟩ := List.exists_cons_of_ne_nil f.gap_ne
    have hblank : Blank (c :: gap) := hgap ▸ f.gap_gap.blank
    rw [hgap, List.cons_append, words_append_cons (hblank c List.mem_cons_self),
      words_separators_append (fun d hd => hblank d (List.mem_cons_of_mem c hd)), hword]
  have hname : ∀ d ∈ f.name, (d != '[') = true := by
    intro d hd
    rw [bne_iff_ne]
    rintro rfl
    exact f.name_plain hd
  unfold fieldName
  rw [hwords, List.getLast?_concat, Option.getD_some]
  unfold splitFirst declarator
  rw [List.takeWhile_append_of_pos hname]
  cases f.array with
  | none => exact List.append_nil _
  | some len => exact List.append_nil _

/-- A part that begins with another letter states no offset. -/
theorem partOffset_of_head {before after s : Str} {c : Char} (hbefore : Blank before) (hc : isWhitespace c = false)
    (hne : c ≠ 'o') : partOffset (trim (before ++ c :: s ++ after)) = none := by
  have hpre : ¬ "offset:".toList.isPrefixOf (c :: (s ++ after).rdropWhile isWhitespace) = true := by
    intro h
    exact hne (List.cons_prefix_cons.mp (List.isPrefixOf_iff_prefix.mp h)).1.symm
  rw [List.append_assoc, List.cons_append, trim_append_cons hbefore hc]
  unfold partOffset stripPrefix
  rw [if_neg hpre]
  rfl

/-- Only the offset states an offset. -/
theorem partOffset_padded {a : Str × Attribute × Str} (ha : a ∈ f.attributes) :
    partOffset (trim (f.padded a)) = if a.2.1 = .offset then some f.offset.value else none := by
  obtain ⟨hbefore, hafter⟩ := f.attributes_gap a ha
  unfold padded
  cases hk : a.2.1 with
  | offset =>
      have htrim : trim (f.attributeText .offset) = f.attributeText .offset := by
        refine trim_of_ends (fun c hc => ?_) (fun c hc => ?_)
        · obtain rfl := Option.some.inj hc
          decide
        · unfold attributeText at hc
          rw [← List.append_assoc, List.getLast?_append, List.getLast?_eq_getLast_of_ne_nil f.offset.nonempty] at hc
          obtain rfl := Option.some.inj hc
          exact f.offset.not_isWhitespace (List.getLast_mem f.offset.nonempty)
      have hnumeral : trim (f.offsetPad ++ f.offset.digits) = f.offset.digits := by
        have hpad : trim (f.offsetPad ++ f.offset.digits ++ []) = trim f.offset.digits :=
          trim_padded f.offsetPad_gap.blank fun c hc => absurd hc List.not_mem_nil
        rw [List.append_nil] at hpad
        rw [hpad, trim_of_forall fun c hc => f.offset.not_isWhitespace hc]
      rw [trim_padded hbefore.blank hafter.blank, htrim, if_pos rfl]
      unfold partOffset attributeText
      rw [stripPrefix_append, Option.bind_some, hnumeral, parseU32_numeral f.offset f.offset_small]
  | size => exact partOffset_of_head hbefore.blank (by decide) (by decide)
  | signed => exact partOffset_of_head hbefore.blank (by decide) (by decide)

/-- The offset is found, wherever it stands. -/
theorem findSome?_partOffset : ∀ {as : List (Str × Attribute × Str)}, (∀ a ∈ as, a ∈ f.attributes) →
    .offset ∈ as.map (fun a => a.2.1) → ∀ rest,
    ((as.map f.padded).map trim ++ rest).findSome? partOffset = some f.offset.value
  | [], _, h, _ => absurd h List.not_mem_nil
  | a :: as, hsub, h, rest => by
      have hpart := f.partOffset_padded (hsub a List.mem_cons_self)
      rw [List.map_cons, List.map_cons, List.cons_append, List.findSome?_cons, hpart]
      by_cases hk : a.2.1 = .offset
      · rw [if_pos hk]
      · rw [if_neg hk]
        exact findSome?_partOffset (fun b hb => hsub b (List.mem_cons_of_mem a hb))
          ((List.mem_cons.mp h).resolve_left fun e => hk e.symm) rest

/-- The parser enters a field's offset under its name. -/
theorem fieldLine_text (m : KeyMap Str ℕ) : fieldLine m f.text = m.insert f.name f.offset.value := by
  have hmem : .offset ∈ f.attributes.map (fun a => a.2.1) := f.attributes_all.mem_iff.mpr List.mem_cons_self
  have hfind := f.findSome?_partOffset (fun a ha => ha) hmem [trim []]
  have hne : f.name.isEmpty = false := List.isEmpty_eq_false_iff.mpr f.name_ne
  have hsplit : ((f.pieces.flatMap (fun p => p ++ [';'])).splitOn ';').map trim =
      trim f.declaration :: ((f.attributes.map f.padded).map trim ++ [trim []]) := by
    rw [splitOn_terminated fun p hp => (f.inline_pieces p hp).2, List.map_append]
    rfl
  unfold fieldLine
  rw [f.trim_text, stripPrefix_append]
  dsimp only
  rw [hsplit]
  cases hrest : (f.attributes.map f.padded).map trim ++ [trim []] with
  | nil => simp at hrest
  | cons second others =>
      rw [hrest] at hfind
      simp only [f.fieldName_declaration, hne, hfind]
      rfl

end FieldLine

/-! ### A file -/

theorem newline_notMem_text : ∀ l : FormatLine, '\n' ∉ l.text
  | .other line hline _ => hline
  | .field f => by
      have hfield : '\n' ∉ "field:".toList := by decide
      have hbody : '\n' ∉ f.pieces.flatMap (fun p => p ++ [';']) := by
        intro h
        obtain ⟨p, hp, h⟩ := List.mem_flatMap.mp h
        cases List.mem_append.mp h with
        | inl h => exact (f.inline_pieces p hp).1 h
        | inr h => exact absurd h (by decide)
      show '\n' ∉ f.text
      unfold FieldLine.text
      rw [List.mem_append, List.mem_append, List.mem_append]
      rintro ((h | h | h) | h)
      · exact f.indent_gap.inline.1 h
      · exact hfield h
      · exact hbody h
      · exact f.trail_gap.inline.1 h

theorem fieldLine_other {line : Str} (h : ¬ "field:".toList <+: trim line) (m : KeyMap Str ℕ) : fieldLine m line = m := by
  have hnone : stripPrefix "field:".toList (trim line) = none := by
    unfold stripPrefix
    rw [if_neg (fun hp => h (List.isPrefixOf_iff_prefix.mp hp))]
  unfold fieldLine
  rw [hnone]

/-- The parser enters the fields of the file in order. -/
theorem foldl_fieldLine : ∀ (ls : List FormatLine) (m : KeyMap Str ℕ), (ls.map FormatLine.text).foldl fieldLine m =
    (formatFields ls).foldl (fun m f => m.insert f.name f.offset.value) m
  | [], m => rfl
  | .field f :: ls, m => by
      have hcons : formatFields (.field f :: ls) = f :: formatFields ls := rfl
      rw [List.map_cons, List.foldl_cons, hcons, List.foldl_cons, ← f.fieldLine_text]
      exact foldl_fieldLine ls _
  | .other line hline hno :: ls, m => by
      have hcons : formatFields (.other line hline hno :: ls) = formatFields ls := rfl
      rw [List.map_cons, List.foldl_cons, hcons]
      show List.foldl fieldLine (fieldLine m line) _ = _
      rw [fieldLine_other hno]
      exact foldl_fieldLine ls m

theorem tracepointParse_eq (ls : List FormatLine) : tracepointParse (some (formatText ls)) =
    some ((formatFields ls).foldl (fun m f => m.insert f.name f.offset.value) ∅) := by
  unfold tracepointParse
  rw [Option.map_some, foldl_lines, ← foldl_fieldLine]
  congr 1
  by_cases hls : ls = []
  · subst hls
    rfl
  · have hsplit : (formatText ls).splitOn '\n' = ls.map FormatLine.text := by
      refine List.splitOn_intercalate '\n' (fun t ht => ?_) (by simpa using hls)
      obtain ⟨l, -, rfl⟩ := List.mem_map.mp ht
      exact newline_notMem_text l
    rw [hsplit]

/-- Entries under distinct names stay. -/
theorem lookup_foldl_insert {k : Str} {n : ℕ} : ∀ {fs : List FieldLine} {m : KeyMap Str ℕ},
    (fs.map FieldLine.name).Nodup → ((fs.foldl (fun m f => m.insert f.name f.offset.value) m).lookup k = some n ↔
      (∃ f ∈ fs, f.name = k ∧ f.offset.value = n) ∨ (k ∉ fs.map FieldLine.name ∧ m.lookup k = some n))
  | [], m, _ => by simp
  | f :: fs, m, hn => by
      obtain ⟨hf, hn⟩ := List.nodup_cons.mp hn
      rw [List.foldl_cons, lookup_foldl_insert hn, KeyMap.lookup_insert, List.exists_mem_cons_iff, List.map_cons,
        List.mem_cons, not_or]
      by_cases hk : k = f.name
      · subst hk
        have hlater : ¬ ∃ g ∈ fs, g.name = f.name ∧ g.offset.value = n := by
          rintro ⟨g, hg, hgk, -⟩
          exact hf (List.mem_map.mpr ⟨g, hg, hgk⟩)
        simp [hf, hlater]
      · have hk' : ¬ f.name = k := fun e => hk e.symm
        simp [hk, hk']

/-- An offset is found under a name when a line of the file says so. -/
theorem lookup_tracepointParse {ls : List FormatLine} (hdistinct : ((formatFields ls).map FieldLine.name).Nodup)
    {m : KeyMap Str ℕ} (hm : tracepointParse (some (formatText ls)) = some m) {k : Str} {n : ℕ} :
    m.lookup k = some n ↔ ∃ f, .field f ∈ ls ∧ f.name = k ∧ f.offset.value = n := by
  have hmem : ∀ f, f ∈ formatFields ls ↔ FormatLine.field f ∈ ls := by
    intro f
    unfold formatFields
    rw [List.mem_filterMap]
    constructor
    · rintro ⟨l, hl, hf⟩
      cases l with
      | field g => exact Option.some.inj hf ▸ hl
      | other line hline hno => cases hf
    · exact fun h => ⟨_, h, rfl⟩
  rw [tracepointParse_eq] at hm
  rw [← Option.some.inj hm, lookup_foldl_insert hdistinct]
  simp [hmem]

/-- The offsets for the BPF programs are those of the three fields. -/
theorem injectedOffsets_text {fork rename : List FormatLine} (hfork : ((formatFields fork).map FieldLine.name).Nodup)
    (hrename : ((formatFields rename).map FieldLine.name).Nodup) {pid comm newcomm : FieldLine}
    (hpid : .field pid ∈ fork ∧ pid.name = "child_pid".toList)
    (hcomm : .field comm ∈ fork ∧ comm.name = "child_comm".toList)
    (hnewcomm : .field newcomm ∈ rename ∧ newcomm.name = "newcomm".toList) :
    injectedOffsets (some (formatText fork)) (some (formatText rename)) =
      some ⟨BitVec.ofNat 32 pid.offset.value, BitVec.ofNat 32 comm.offset.value,
        BitVec.ofNat 32 newcomm.offset.value⟩ := by
  have h₁ := (lookup_tracepointParse hfork (tracepointParse_eq fork)).mpr ⟨pid, hpid.1, hpid.2, rfl⟩
  have h₂ := (lookup_tracepointParse hfork (tracepointParse_eq fork)).mpr ⟨comm, hcomm.1, hcomm.2, rfl⟩
  have h₃ := (lookup_tracepointParse hrename (tracepointParse_eq rename)).mpr ⟨newcomm, hnewcomm.1, hnewcomm.2, rfl⟩
  unfold injectedOffsets
  rw [tracepointParse_eq, tracepointParse_eq]
  simp only [Option.bind_eq_bind, Option.bind_some, h₁, h₂, h₃]
  rfl

/-- **The parser returns the offset of every field under its name**, and nothing else. -/
theorem tracepointParse_text (ls : List FormatLine) (hdistinct : ((formatFields ls).map FieldLine.name).Nodup) :
    ∃ m, tracepointParse (some (formatText ls)) = some m ∧
      ∀ k n, m.lookup k = some n ↔ ∃ f, .field f ∈ ls ∧ f.name = k ∧ f.offset.value = n :=
  ⟨_, tracepointParse_eq ls, fun _ _ => lookup_tracepointParse hdistinct (tracepointParse_eq ls)⟩

/-- A field line as the kernel prints it, for a field that is not signed. -/
def kernelLine (typeText name : Str) (array : Option Str) (offset : ℕ) (size : Str) (htype : Inline typeText)
    (hname : name ≠ [] ∧ Wordy name ∧ '[' ∉ name) (harray : ∀ len ∈ array, Wordy len)
    (hoffset : (Numeral.ofNat offset).value < 2 ^ 32) (hsize : Inline size) : FieldLine where
  indent := "\t".toList
  typeText := typeText
  gap := " ".toList
  name := name
  array := array
  pad := []
  offset := .ofNat offset
  offsetPad := []
  size := size
  signed := "0".toList
  attributes := [("\t".toList, .offset, []), ("\t".toList, .size, []), ("\t".toList, .signed, [])]
  trail := []
  indent_gap := by decide
  type_inline := htype
  gap_gap := by decide
  gap_ne := by decide
  name_ne := hname.1
  name_wordy := hname.2.1
  name_plain := hname.2.2
  array_wordy := harray
  pad_gap := by decide
  offset_small := hoffset
  offsetPad_gap := by decide
  size_inline := hsize
  signed_inline := by decide
  attributes_all := by decide
  attributes_gap := by decide
  trail_gap := by decide

/-- The name of the new thread, with its array length. -/
def childCommLine : FieldLine :=
  kernelLine "char".toList "child_comm".toList (some "16".toList) 28 "16".toList (by decide) (by decide) (by decide)
    (by decide) (by decide)

/-- The name of its parent, with brackets in the type. -/
def parentCommLine : FieldLine :=
  kernelLine "__data_loc char[]".toList "parent_comm".toList none 8 "4".toList (by decide) (by decide) (by decide)
    (by decide) (by decide)

def commonTypeLine : FieldLine :=
  kernelLine "unsigned short".toList "common_type".toList none 0 "2".toList (by decide) (by decide) (by decide)
    (by decide) (by decide)

/-- A record of `sched_process_fork`. -/
def forkRecord : List FormatLine :=
  [.other "name: sched_process_fork".toList (by decide) (by decide), .other "format:".toList (by decide) (by decide),
    .field commonTypeLine, .field parentCommLine, .other [] (by decide) (by decide), .field childCommLine]

theorem tracepointParse_text_fork :
    formatText forkRecord = ("name: sched_process_fork\nformat:\n" ++
        "\tfield:unsigned short common_type;\toffset:0;\tsize:2;\tsigned:0;\n" ++
        "\tfield:__data_loc char[] parent_comm;\toffset:8;\tsize:4;\tsigned:0;\n\n" ++
        "\tfield:char child_comm[16];\toffset:28;\tsize:16;\tsigned:0;").toList ∧
      ∃ m, tracepointParse (some (formatText forkRecord)) = some m ∧ m.lookup "common_type".toList = some 0 ∧
        m.lookup "parent_comm".toList = some 8 ∧ m.lookup "child_comm".toList = some 28 := by
  obtain ⟨m, hm, h⟩ := tracepointParse_text forkRecord (by decide +kernel)
  exact ⟨by decide +kernel, m, hm, (h _ _).mpr ⟨commonTypeLine, by simp [forkRecord], rfl, by decide⟩,
    (h _ _).mpr ⟨parentCommLine, by simp [forkRecord], rfl, by decide⟩,
    (h _ _).mpr ⟨childCommLine, by simp [forkRecord], rfl, by decide⟩⟩

end AetherOptExt

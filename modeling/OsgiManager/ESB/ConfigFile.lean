import OsgiManager.Lib.Bytes
import OsgiManager.Lib.Loop

namespace OsgiManager.ESB

open OsgiManager.Lib

/-!
# Reading the configuration file

`InitializeAndStart` reads the configuration file in chunks of 1024 bytes.  The loop has one
exit, and takes it when the string in the chunk buffer is shorter than a chunk; a read that
gets nothing neither exits nor changes anything.

* `readBody` — one pass of the loop;
* `readBody_clean` — what a pass does when the buffer holds only zeros;
* `config_read_iff` — the loop ends, with the content of the file, exactly when the length
  of the file is no multiple of the chunk size.
-/

/-- `FILE_READ_CHUNK_SIZE`. -/
def fileReadChunkSize : Nat := 1024

/-- The variables of the loop, and what is left of the file. -/
structure ReadState where
  configString : Bytes
  rdData : Bytes
  file : Bytes

/-- `fread(rdData, 1, n, configFile)`: the bytes delivered, the buffer they are stored in,
    and what is left of the file. -/
def fread (rdData : Bytes) (n : Nat) (file : Bytes) : Bytes × Bytes × Bytes :=
  let data := file.take n
  (data, data ++ rdData.drop data.length, file.drop n)

/-- One pass of the read loop. -/
def readBody (s : ReadState) : ReadState ⊕ Bytes :=
  let (data, rdData, file) := fread s.rdData fileReadChunkSize s.file
  if data.length > 0 then
    let configString := s.configString ++ cstr rdData
    if (cstr rdData).length < fileReadChunkSize then .inr configString
    else
      -- the buffer is zeroed for the next read
      .inl ⟨configString, List.replicate fileReadChunkSize 0 ++ rdData.drop fileReadChunkSize, file⟩
  -- a read that gets nothing does not leave the loop
  else .inl ⟨s.configString, rdData, file⟩

/-- The buffer as it is declared: one byte longer than a chunk, and all zeros. -/
def cleanBuffer : Bytes := List.replicate (fileReadChunkSize + 1) 0

/-- The loop at its start, on a file with the given content. -/
def readStart (content : Bytes) : ReadState := ⟨[], cleanBuffer, content⟩

/-- A clean buffer that has taken in bytes without zeros shows exactly these. -/
theorem cstr_clean {data : Bytes} (hfree : NulFree data) (hlen : data.length ≤ fileReadChunkSize) :
    cstr (data ++ cleanBuffer.drop data.length) = data := by
  have hzeros : cstr (cleanBuffer.drop data.length) = [] := by
    rw [cleanBuffer, List.drop_replicate,
      show fileReadChunkSize + 1 - data.length = (fileReadChunkSize - data.length) + 1 by omega]
    rfl
  rw [cstr_append hfree, hzeros, List.append_nil]

/-- **Spec of a pass.**  On a clean buffer and a file without zero bytes, a pass at the end
    of the file changes nothing, a last chunk shorter than the others leaves the loop, and a
    whole chunk is appended, after which the buffer is clean again. -/
theorem readBody_clean {s file : Bytes} (hfree : NulFree file) :
    readBody ⟨s, cleanBuffer, file⟩ =
      if file = [] then .inl ⟨s, cleanBuffer, []⟩
      else if file.length < fileReadChunkSize then .inr (s ++ file)
      else .inl ⟨s ++ file.take fileReadChunkSize, cleanBuffer, file.drop fileReadChunkSize⟩ := by
  have hsize : fileReadChunkSize = 1024 := rfl
  have hshown := cstr_clean (hfree.of_isInfix (List.take_prefix fileReadChunkSize file).isInfix)
    (List.length_take_le _ _)
  unfold readBody fread
  simp only [hshown]
  by_cases hnil : file = []
  · subst hnil
    rfl
  · have hpos := List.length_pos_iff.mpr hnil
    rw [if_neg hnil, if_pos (show (file.take fileReadChunkSize).length > 0 by
      rw [List.length_take]; omega)]
    by_cases hlt : file.length < fileReadChunkSize
    · rw [if_pos hlt, List.take_of_length_le (by omega), if_pos hlt]
    · have hlen : (file.take fileReadChunkSize).length = fileReadChunkSize := by
        rw [List.length_take]
        omega
      have hclean : List.replicate fileReadChunkSize 0 ++ cleanBuffer.drop fileReadChunkSize =
          cleanBuffer := by
        rw [cleanBuffer, List.drop_replicate, List.replicate_append_replicate]
        rfl
      rw [if_neg hlt, if_neg (by omega), hlen, List.drop_left' hlen, hclean]

/-- A file whose length is a multiple of the chunk size is read to its end and then read on
    for ever. -/
theorem readBody_diverges {content : Bytes} (hfree : NulFree content)
    (hmod : content.length % fileReadChunkSize = 0) (r : Bytes) :
    ¬ Loop.Returns readBody (readStart content) r := by
  refine Loop.not_returns (fun s => s.rdData = cleanBuffer ∧ NulFree s.file ∧
    s.file.length % fileReadChunkSize = 0) ?_ ⟨rfl, hfree, hmod⟩ r
  rintro ⟨s, rdData, file⟩ ⟨rfl, hfile, hlen⟩
  have hfree : NulFree file := hfile
  have hmod : file.length % 1024 = 0 := hlen
  have hsize : fileReadChunkSize = 1024 := rfl
  rw [readBody_clean hfree]
  by_cases hnil : file = []
  · -- at the end of the file a pass leads back to where it was
    rw [if_pos hnil]
    exact ⟨_, rfl, rfl, nulFree_nil, rfl⟩
  · -- not empty and a multiple of the chunk size, so at least one whole chunk
    have hpos := List.length_pos_iff.mpr hnil
    rw [if_neg hnil, if_neg (by omega)]
    refine ⟨_, rfl, rfl, hfree.of_isInfix (List.drop_suffix _ _).isInfix, ?_⟩
    show (file.drop 1024).length % 1024 = 0
    rw [List.length_drop]
    omega

/-- What holds at the top of the loop while a file whose length is no multiple of the chunk
    size is being read. -/
structure Reading (content : Bytes) (s : ReadState) : Prop where
  clean : s.rdData = cleanBuffer
  free : NulFree s.file
  parts : s.configString ++ s.file = content
  short : s.file.length % fileReadChunkSize ≠ 0

/-- A pass at the top of the loop leaves it with the whole content, or appends a whole chunk. -/
theorem readBody_reading {content : Bytes} {s : ReadState} (h : Reading content s) :
    readBody s =
      if s.file.length < fileReadChunkSize then .inr content
      else .inl ⟨s.configString ++ s.file.take fileReadChunkSize, cleanBuffer,
        s.file.drop fileReadChunkSize⟩ := by
  obtain ⟨s, rdData, file⟩ := s
  obtain ⟨rfl, hfree, hparts, hshort⟩ := h
  -- an empty file would have a length that is a multiple of the chunk size
  have hnil : file ≠ [] := by
    intro hnil
    apply hshort
    rw [hnil]
    rfl
  rw [readBody_clean hfree, if_neg hnil, ← hparts]

/-- A pass that goes on keeps `Reading` and leaves less of the file. -/
theorem reading_next {content : Bytes} (s s' : ReadState) (h : Reading content s)
    (hbody : readBody s = .inl s') : Reading content s' ∧ s'.file.length < s.file.length := by
  rw [readBody_reading h] at hbody
  split_ifs at hbody with hlt
  cases hbody
  have hsize : fileReadChunkSize = 1024 := rfl
  have hshort : s.file.length % 1024 ≠ 0 := h.short
  have hdrop : (s.file.drop 1024).length = s.file.length - 1024 := List.length_drop
  refine ⟨⟨rfl, h.free.of_isInfix (List.drop_suffix _ _).isInfix, ?_, ?_⟩, ?_⟩
  · rw [← h.parts, List.append_assoc, List.take_append_drop]
  · show (s.file.drop 1024).length % 1024 ≠ 0
    omega
  · show (s.file.drop 1024).length < s.file.length
    omega

/-- A pass that leaves the loop does so with the whole content. -/
theorem reading_exit {content : Bytes} (s : ReadState) (r : Bytes) (h : Reading content s)
    (hbody : readBody s = .inr r) : r = content := by
  rw [readBody_reading h] at hbody
  split_ifs at hbody with hlt
  exact (Sum.inr.inj hbody).symm

/-- A file of any other length is read in as many passes as it has bytes, and one more. -/
theorem readBody_returns {content : Bytes} (hfree : NulFree content)
    (hmod : content.length % fileReadChunkSize ≠ 0) :
    Loop.Returns readBody (readStart content) content := by
  have hstart : Reading content (readStart content) := ⟨rfl, hfree, rfl, hmod⟩
  obtain ⟨r, hr, rfl⟩ := Loop.run_of_variant (Reading content) (fun s => s.file.length)
    (fun r => r = content) reading_next reading_exit hstart (Nat.lt_succ_self _)
  exact ⟨_, hr⟩

/-- **Reading the configuration.**  For a file without zero bytes, the loop ends with exactly
    the content of the file if and only if its length is no multiple of the chunk size. -/
theorem config_read_iff (content : Bytes) (hfree : NulFree content) :
    Loop.Returns readBody (readStart content) content ↔
      content.length % fileReadChunkSize ≠ 0 := by
  constructor
  · -- a multiple of the chunk size is read for ever
    intro hreturns hmod
    exact readBody_diverges hfree hmod content hreturns
  · intro hmod
    exact readBody_returns hfree hmod

/-- A small configuration, filled up with `n` spaces. -/
def filledConfig (n : Nat) : Bytes := ofString "\x7b\x7d" ++ List.replicate n ' '.toUInt8

theorem length_filledConfig (n : Nat) : (filledConfig n).length = 2 + n := by
  rw [filledConfig, List.length_append, List.length_replicate]
  rfl

theorem nulFree_filledConfig (n : Nat) : NulFree (filledConfig n) := by
  rw [filledConfig, nulFree_append]
  exact ⟨by decide, fun h => absurd (List.eq_of_mem_replicate h) (by decide)⟩

/-- The loop on two chunks and a part of a third. -/
theorem config_read_filled :
    Loop.Returns readBody (readStart (filledConfig 2500)) (filledConfig 2500) :=
  (config_read_iff (filledConfig 2500) (nulFree_filledConfig 2500)).mpr
    (by rw [length_filledConfig]; decide)

/-- The same configuration, filled up to one chunk. -/
def paddedConfig : Bytes := filledConfig 1022

/-- The loop on it does not end. -/
theorem config_read_padded : ¬ Loop.Returns readBody (readStart paddedConfig) paddedConfig := by
  refine readBody_diverges (nulFree_filledConfig 1022) ?_ paddedConfig
  show (filledConfig 1022).length % fileReadChunkSize = 0
  rw [length_filledConfig]
  rfl

end OsgiManager.ESB

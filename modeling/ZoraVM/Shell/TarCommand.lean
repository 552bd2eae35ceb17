import ZoraVM.Foundation.CInt
import ZoraVM.Foundation.Radix
import ZoraVM.Foundation.WordLoop
import ZoraVM.Shell.Redirection
import ZoraVM.Unix.GrepPartition

namespace ZoraVM.Shell

open Foundation Vfs Unix

section Source

-- getenv("TEMP"), what "%p" prints of a node and what "%011ld" is given for time(NULL).
structure TarEnv where
  temp : Option Bytes
  pointerText : Nat → Bytes
  now : Int

def tempPath (env : TarEnv) (filename : Bytes) (node : Nat) : Bytes :=
  let name := ((splitLast slash filename).map Prod.snd).getD filename
  clip 512 (env.temp.getD (str "C:\\temp") ++
    (str "\\ZoraVM_" ++ (name ++ (str "_" ++ env.pointerText node))))

-- vm_fopen(filename, "rb"), with what it prints.
def vmFopen (env : TarEnv) (s : VfsState) (filename : Bytes) :
    Outcome (List Bytes × Option Bytes) := do
  match ← vfsFindNode s filename with
  | none => .ok ([str "vm_fopen: File not found in VFS: " ++ (filename ++ [newline])], none)
  | some node =>
    -- free(host_path), which points to a static buffer of vfs_get_host_path.
    if s.hostRootDirectory ≠ [] then .error .wildPointer
    else
      .ok ([str "vm_fopen: Opening virtual file (no host mapping): " ++ (filename ++ [newline])],
        s.host.openRead (tempPath env filename node))

def field (width : Nat) (text : Bytes) : Bytes := text ++ List.replicate (width - text.length) 0

-- "%011ld"
def longText (n : Int) : Bytes :=
  if n < 0 then 45 :: zeroPadded 10 (radixText 10 n.natAbs) else zeroPadded 11 (radixText 10 n.natAbs)

-- name, mode, uid, gid, size and mtime
def headerFront (now : Int) (filename : Bytes) (filesize : Nat) : Bytes :=
  field 100 (filename.take 99) ++ (field 8 (str "0000644") ++ (field 8 (str "0000000") ++
    (field 8 (str "0000000") ++ (field 12 (clip 12 (zeroPadded 11 (radixText 8 filesize))) ++
      field 12 (clip 12 (longText now))))))

-- typeflag, linkname, magic, version, uname, gname, devmajor, devminor, prefix and padding; the
-- zero behind the version falls into uname.
def headerBack : Bytes :=
  str "0" ++ (field 100 [] ++ (field 6 (str "ustar") ++ (field 2 (str "00") ++ (field 32 [] ++
    (field 32 [] ++ (field 8 [] ++ (field 8 [] ++ (field 155 [] ++ field 12 []))))))))

def byteSum (bytes : Bytes) : Nat := (bytes.map UInt8.toNat).sum

-- "%06o" over eight spaces.
def checksumField (checksum : Nat) : Bytes :=
  let text := clip 8 (zeroPadded 6 (radixText 8 checksum))
  text ++ 0 :: List.replicate (7 - text.length) 32

def tarHeader (now : Int) (filename : Bytes) (filesize : Nat) : Bytes :=
  let front := headerFront now filename filesize
  let checksum := byteSum (front ++ (List.replicate 8 32 ++ headerBack))
  front ++ (checksumField checksum ++ headerBack)

-- The loop over fread and fwrite.
def copyBlocks (input stream : Bytes) : Bytes :=
  if input = [] then stream else copyBlocks (input.drop 512) (stream ++ input.take 512)
termination_by input.length
decreasing_by
  rename_i h
  have hpos := List.length_pos_iff.mpr h
  rw [List.length_drop]
  omega

-- A long has 32 bits: ftell of a larger file is -1, as a size_t.
def ftell (content : Bytes) : Nat :=
  if content.length < 2 ^ 31 then content.length else 2 ^ 64 - 1

def tarPadding (filesize : Nat) : Nat := (512 - filesize % 512) % 512

def sizeText (n : Nat) : Bytes := str (toString n) ++ str " bytes)\n"

def tarEntry (now : Int) (filename content : Bytes) (stream : Bytes) : Bytes :=
  let filesize := ftell content
  copyBlocks content (stream ++ tarHeader now filename filesize) ++
    List.replicate (tarPadding filesize) 0

def tarFiles (env : TarEnv) (s : VfsState) (printed : List Bytes) (stream : Bytes) :
    List Bytes → Checked (List Bytes × Bytes)
  | [] => .ok (printed, stream)
  | filename :: files => do
    match ← Checked.of (vmFopen env s filename) with
    | (said, none) =>
      tarFiles env s (printed ++ (said ++
        [str "tar: '" ++ (filename ++ str "': No such file or directory\n")])) stream files
    | (said, some content) =>
      tarFiles env s (printed ++ (said ++ [str "tar: Adding " ++ (filename ++ (str " (" ++
        sizeText (ftell content)))])) (tarEntry env.now filename content stream) files

-- strtoul(text, NULL, 8)
def strtoulOctal (text : Bytes) : Nat :=
  let text := text.dropWhile isSpace
  let digits := if text.head? = some 45 ∨ text.head? = some 43 then text.tail else text
  let n := radixValue 8 (digits.takeWhile (isDigitIn 8))
  if 2 ^ 32 ≤ n then 2 ^ 32 - 1 else if text.head? = some 45 then (2 ^ 32 - n) % 2 ^ 32 else n

def listedLine (name : Bytes) (filesize : Nat) : Bytes :=
  str "tar: " ++ (name ++ (str " (" ++ sizeText filesize))

-- The loop over fread and fseek, on what is left of the file; an offset is a long.
def tarEntries (stream : Bytes) : Checked (List Bytes) :=
  if stream.length < 512 then .ok []
  else
    let header := stream.take 512
    if header.head? = some 0 then .ok []
    else do
      let name ← Checked.of (cstring header)
      let filesize := strtoulOctal (header.drop 124)
      let skip ← checkedNat ((filesize + 511) / 512 * 512)
      let entries ← tarEntries ((stream.drop 512).drop skip)
      .ok (listedLine name filesize :: entries)
termination_by stream.length
decreasing_by
  simp only [List.length_drop]
  omega

def tarUsage : List Bytes :=
  [str "Usage: tar [options] archive_name files...\n",
    str "Options: -c (create), -x (extract), -t (list), -v (verbose), -f (file)\n",
    str "Example: tar -cvf archive.tar file1 file2\n"]

def zeroBlock : Bytes := List.replicate 512 0

-- Everything it prints, one entry for each printf; what is written is in the file when it is closed.
def tarCommand (env : TarEnv) (s : VfsState) (argv : List Bytes) :
    Checked (List Bytes × VfsState) :=
  match argv with
  | _ :: options :: archive :: files =>
    if 99 ∈ options then
      match s.host.openWrite archive [] with
      | (false, host) =>
        .ok ([str "tar: cannot create '" ++ (archive ++ str "': Permission denied\n")],
          { s with host := host })
      | (true, host) => do
        let s := { s with host := host }
        let (printed, stream) ←
          tarFiles env s [str "tar: Creating archive " ++ (archive ++ [newline])] [] files
        let stream := stream ++ (zeroBlock ++ zeroBlock)
        .ok (printed ++ [str "tar: Archive created successfully\n"],
          { s with host := s.host.set (Location.resolve archive) (.file stream) })
    else if 116 ∈ options then
      match s.host.openRead archive with
      | none =>
        .ok ([str "tar: cannot access '" ++ (archive ++ str "': No such file or directory\n")], s)
      | some stream => do
        let entries ← tarEntries stream
        .ok ((str "tar: Contents of " ++ (archive ++ str ":\n")) :: entries, s)
    else if 120 ∈ options then
      .ok ([str "tar: Extraction not yet implemented (use -t to list contents)\n"], s)
    else .ok ([], s)
  | _ => .ok (tarUsage, s)

end Source

section Header

variable {now : Int} {name content stream rest : Bytes} {width size n : Nat}

theorem length_field (text : Bytes) (h : text.length ≤ width) : (field width text).length = width := by
  rw [field, List.length_append, List.length_replicate]
  omega

theorem length_headerFront (now : Int) (name : Bytes) (size : Nat) :
    (headerFront now name size).length = 148 := by
  have hname := length_field (name.take 99) (show _ ≤ 100 from by simp)
  have hmode := @length_field 8 (str "0000644") (by decide)
  have hid := @length_field 8 (str "0000000") (by decide)
  have hsize := @length_field 12 (clip 12 (zeroPadded 11 (radixText 8 size)))
    ((length_clip_le _ _).trans (by decide))
  have hmtime := @length_field 12 (clip 12 (longText now)) ((length_clip_le _ _).trans (by decide))
  simp only [headerFront, List.length_append, hname, hmode, hid, hsize, hmtime]

theorem length_headerBack : headerBack.length = 356 := by decide +kernel

theorem byteSum_le (bytes : Bytes) : byteSum bytes ≤ 255 * bytes.length := by
  induction bytes with
  | nil => exact Nat.le_refl 0
  | cons c bytes ih =>
    have hc := c.toNat_lt
    rw [byteSum, List.map_cons, List.sum_cons, List.length_cons, ← byteSum]
    omega

theorem checksumField_eq (h : n < 8 ^ 6) :
    checksumField n = zeroPadded 6 (radixText 8 n) ++ [0, 32] := by
  have hlen := length_zeroPadded (length_radixText_le (by decide) (by decide) h)
  rw [checksumField, clip_of_length_lt (by rw [hlen]; decide), hlen]
  rfl

theorem checksum_lt (now : Int) (name : Bytes) (size : Nat) :
    byteSum (headerFront now name size ++ (List.replicate 8 32 ++ headerBack)) < 8 ^ 6 := by
  refine (byteSum_le _).trans_lt ?_
  rw [List.length_append, List.length_append, length_headerFront, length_headerBack,
    List.length_replicate]
  decide

theorem length_checksumField (h : n < 8 ^ 6) : (checksumField n).length = 8 := by
  rw [checksumField_eq h, List.length_append,
    length_zeroPadded (length_radixText_le (by decide) (by decide) h)]
  rfl

theorem length_tarHeader (now : Int) (name : Bytes) (size : Nat) :
    (tarHeader now name size).length = 512 := by
  rw [tarHeader, List.length_append, List.length_append, length_headerFront,
    length_checksumField (checksum_lt now name size), length_headerBack]

def ChecksumStored (header : Bytes) : Prop :=
  radixValue 8 (((header.drop 148).take 8).takeWhile (isDigitIn 8)) =
    byteSum (header.take 148 ++ (List.replicate 8 32 ++ header.drop 156))

theorem radixValue_checksumField (h : n < 8 ^ 6) :
    radixValue 8 ((checksumField n).takeWhile (isDigitIn 8)) = n := by
  have hdigits := zeroPadded_digits (w := 6) (by decide) (@radixText_digits 8 n (by decide) (by decide))
  rw [checksumField_eq h, takeWhile_digits hdigits (by simp; decide), radixValue_zeroPadded,
    radixValue_radixText (by decide) (by decide)]

theorem checksumStored_of_fields {front checksum back : Bytes} (hfront : front.length = 148)
    (hchecksum : checksum.length = 8)
    (hsum : radixValue 8 (checksum.takeWhile (isDigitIn 8)) =
      byteSum (front ++ (List.replicate 8 32 ++ back))) :
    ChecksumStored (front ++ (checksum ++ back)) := by
  have hback : (front ++ (checksum ++ back)).drop 156 = back := by
    rw [← List.append_assoc, List.drop_left' (by rw [List.length_append, hfront, hchecksum])]
  rw [ChecksumStored, hback, List.drop_left' hfront, List.take_left' hfront,
    List.take_left' hchecksum, hsum]

theorem checksumStored_tarHeader (now : Int) (name : Bytes) (size : Nat) :
    ChecksumStored (tarHeader now name size) :=
  checksumStored_of_fields (length_headerFront now name size)
    (length_checksumField (checksum_lt now name size))
    (radixValue_checksumField (checksum_lt now name size))

theorem tarHeader_name (now : Int) (size : Nat) (hlen : name.length ≤ 99) :
    ∃ rest, tarHeader now name size = name ++ 0 :: rest := by
  have hroom : 100 - name.length = (99 - name.length) + 1 := by omega
  rw [tarHeader, headerFront, field, List.take_of_length_le hlen, hroom, List.replicate_succ]
  simp only [List.append_assoc, List.cons_append]
  exact ⟨_, rfl⟩

theorem digit_plain {c : UInt8} (h : isDigitIn 8 c = true) :
    isSpace c = false ∧ c ≠ 45 ∧ c ≠ 43 := by
  have hle : 48 ≤ c.toNat := by
    simp only [isDigitIn, Bool.and_eq_true, decide_eq_true_eq] at h
    exact h.1
  have hspace : ¬ c ≤ 13 := fun hc => by
    have hsmall : c.toNat ≤ 13 := UInt8.le_iff_toNat_le.mp hc
    omega
  have hne : ∀ d : UInt8, d.toNat < 48 → c ≠ d := by
    rintro d hd rfl
    omega
  have hblank := hne 32 (by decide)
  exact ⟨by simp [isSpace, hblank, hspace], hne 45 (by decide), hne 43 (by decide)⟩

theorem strtoulOctal_digits {text : Bytes} (hne : text ≠ [])
    (hall : ∀ c ∈ text, isDigitIn 8 c = true) (hrest : ∀ c ∈ rest.head?, isDigitIn 8 c = false)
    (hlt : radixValue 8 text < 2 ^ 32) : strtoulOctal (text ++ rest) = radixValue 8 text := by
  have htake := takeWhile_digits hall hrest
  cases text with
  | nil => exact absurd rfl hne
  | cons c text =>
    obtain ⟨hspace, hminus, hplus⟩ := digit_plain (hall c List.mem_cons_self)
    have hskip : (c :: text ++ rest).dropWhile isSpace = c :: text ++ rest :=
      List.dropWhile_cons_of_neg (by simp [hspace])
    have hhead : (c :: text ++ rest).head? = some c := rfl
    simp only [strtoulOctal, hskip, hhead, Option.some.injEq, hminus, hplus, or_self, if_false,
      htake]
    rw [if_neg (Nat.not_le.mpr hlt)]

theorem drop_fields {a b c d : Bytes} (h : (a ++ (b ++ (c ++ d))).length = n) (size mtime back : Bytes) :
    ((a ++ (b ++ (c ++ (d ++ (size ++ mtime))))) ++ back).drop n = size ++ (mtime ++ back) := by
  have hsplit : (a ++ (b ++ (c ++ (d ++ (size ++ mtime))))) ++ back =
      (a ++ (b ++ (c ++ d))) ++ (size ++ (mtime ++ back)) := by
    simp only [List.append_assoc]
  rw [hsplit, List.drop_left' h]

theorem tarHeader_size (now : Int) (name : Bytes) (h : size < 8 ^ 11) :
    ∃ rest, (tarHeader now name size).drop 124 = zeroPadded 11 (radixText 8 size) ++ 0 :: rest := by
  have hlen := length_zeroPadded (length_radixText_le (by decide) (by decide) h)
  have hfield : field 12 (clip 12 (zeroPadded 11 (radixText 8 size))) =
      zeroPadded 11 (radixText 8 size) ++ [0] := by
    rw [clip_of_length_lt (by rw [hlen]; decide), field, hlen]
    rfl
  have hname := length_field (name.take 99) (show _ ≤ 100 from by simp)
  have hmode := @length_field 8 (str "0000644") (by decide)
  have hid := @length_field 8 (str "0000000") (by decide)
  have hfront : (field 100 (name.take 99) ++ (field 8 (str "0000644") ++
      (field 8 (str "0000000") ++ field 8 (str "0000000")))).length = 124 := by
    simp only [List.length_append, hname, hmode, hid]
  rw [tarHeader, headerFront, hfield, drop_fields hfront, List.append_assoc]
  exact ⟨_, rfl⟩

theorem strtoulOctal_tarHeader (now : Int) (name : Bytes) (h : size < 2 ^ 31) :
    strtoulOctal ((tarHeader now name size).drop 124) = size := by
  have hlt : size < 8 ^ 11 := h.trans (by decide)
  obtain ⟨rest, hdrop⟩ := tarHeader_size now name hlt
  have hvalue : radixValue 8 (zeroPadded 11 (radixText 8 size)) = size := by
    rw [radixValue_zeroPadded, radixValue_radixText (by decide) (by decide)]
  have hne : zeroPadded 11 (radixText 8 size) ≠ [] := List.ne_nil_of_length_pos (by
    rw [length_zeroPadded (length_radixText_le (by decide) (by decide) hlt)]
    decide)
  have hdigits := zeroPadded_digits (w := 11) (by decide)
    (@radixText_digits 8 size (by decide) (by decide))
  rw [hdrop, strtoulOctal_digits hne hdigits (by simp; decide) (by rw [hvalue]; exact h.trans (by decide)),
    hvalue]

end Header

section Archive

structure TarFile where
  name : Bytes
  content : Bytes
  deriving DecidableEq, Repr

-- Each file is a header and its content, padded with zeros to whole blocks; two zero blocks end it.
inductive Stored : List TarFile → Bytes → Prop
  | nil : Stored [] (zeroBlock ++ zeroBlock)
  | cons {file : TarFile} {files : List TarFile} {header stream : Bytes} {padding : Nat} :
    header.length = 512 → ChecksumStored header → padding < 512 →
      512 ∣ file.content.length + padding → Stored files stream →
      Stored (file :: files)
        (header ++ (file.content ++ (List.replicate padding 0 ++ stream)))

variable {env : TarEnv} {s : VfsState} {file : TarFile} {files : List TarFile} {now : Int}
variable {archive stream : Bytes} {printed : List Bytes}

structure TarFile.Plain (file : TarFile) : Prop where
  named : 1 ≤ file.name.length ∧ file.name.length ≤ 99
  no_zero : 0 ∉ file.name
  small : file.content.length < 2 ^ 31

def entryBytes (now : Int) (file : TarFile) : Bytes :=
  tarHeader now file.name file.content.length ++
    (file.content ++ List.replicate (tarPadding file.content.length) 0)

theorem copyBlocks_eq (input stream : Bytes) : copyBlocks input stream = stream ++ input := by
  fun_induction copyBlocks input stream with
  | case1 => simp
  | case2 input stream h ih => rw [ih, List.append_assoc, List.take_append_drop]

theorem tarPadding_lt (size : Nat) : tarPadding size < 512 := Nat.mod_lt _ (by decide)

theorem size_add_tarPadding (size : Nat) :
    size + tarPadding size = (size + 511) / 512 * 512 := by
  rw [tarPadding]
  omega

theorem TarFile.Plain.ftell (h : file.Plain) : ftell file.content = file.content.length :=
  if_pos h.small

theorem tarEntry_eq (h : file.Plain) (now : Int) (stream : Bytes) :
    tarEntry now file.name file.content stream = stream ++ entryBytes now file := by
  simp only [tarEntry, h.ftell, copyBlocks_eq, entryBytes, List.append_assoc]

theorem stored_entries (h : ∀ file ∈ files, file.Plain) (now : Int) :
    Stored files (files.flatMap (entryBytes now) ++ (zeroBlock ++ zeroBlock)) := by
  induction files with
  | nil => exact .nil
  | cons file files ih =>
    have hrest := ih fun f hf => h f (List.mem_cons_of_mem file hf)
    have hblocks : 512 ∣ file.content.length + tarPadding file.content.length := by
      rw [size_add_tarPadding]
      exact Nat.dvd_mul_left 512 _
    rw [List.flatMap_cons, entryBytes]
    simp only [List.append_assoc]
    exact .cons (length_tarHeader now file.name _) (checksumStored_tarHeader now file.name _)
      (tarPadding_lt _) hblocks hrest

def listedFile (file : TarFile) : Bytes := listedLine file.name file.content.length

theorem tarEntries_end : tarEntries (zeroBlock ++ zeroBlock) = .ok [] := by
  rw [tarEntries, if_neg (by decide +kernel)]
  exact if_pos (by decide +kernel)

theorem TarFile.Plain.header (h : file.Plain) (now : Int) :
    (tarHeader now file.name file.content.length).head? ≠ some 0 ∧
      cstring (tarHeader now file.name file.content.length) = .ok file.name ∧
        strtoulOctal ((tarHeader now file.name file.content.length).drop 124) =
          file.content.length := by
  obtain ⟨rest, hname⟩ := tarHeader_name now file.content.length h.named.2
  refine ⟨fun hhead => ?_, ?_, strtoulOctal_tarHeader now file.name h.small⟩
  · have hpos := h.named.1
    have hzero := h.no_zero
    rw [hname] at hhead
    cases hfile : file.name with
    | nil => simp [hfile] at hpos
    | cons c name =>
      rw [hfile] at hhead hzero
      obtain rfl := Option.some.inj hhead
      exact hzero List.mem_cons_self
  · rw [hname]
    exact cstring_ended h.no_zero rest

theorem tarEntries_entry (h : file.Plain) (now : Int) (stream : Bytes) :
    tarEntries (entryBytes now file ++ stream) =
      checkedNat (file.content.length + tarPadding file.content.length) >>= fun _ =>
        (listedFile file :: ·) <$> tarEntries stream := by
  have hlen := length_tarHeader now file.name file.content.length
  obtain ⟨hhead, hname, hsize⟩ := h.header now
  have hentry : entryBytes now file ++ stream = tarHeader now file.name file.content.length ++
      ((file.content ++ List.replicate (tarPadding file.content.length) 0) ++ stream) := by
    rw [entryBytes, List.append_assoc]
  have hskip : ((file.content ++ List.replicate (tarPadding file.content.length) 0) ++ stream).drop
      (file.content.length + tarPadding file.content.length) = stream :=
    List.drop_left' (by rw [List.length_append, List.length_replicate])
  rw [hentry, tarEntries, if_neg (by rw [List.length_append, hlen]; omega), List.take_left' hlen,
    List.drop_left' hlen]
  simp only [if_neg hhead, hname, hsize, ← size_add_tarPadding, Checked.of, Except.mapError, bind,
    Except.bind]
  by_cases hle : file.content.length + tarPadding file.content.length ≤ 2147483647
  · simp only [checkedNat_ok hle, hskip]
    rfl
  · simp only [checkedNat_overflow (Nat.not_le.mp hle)]

theorem tarEntries_stored (h : ∀ file ∈ files, file.Plain)
    (hlong : ∀ file ∈ files, file.content.length ≤ 2147483136) (now : Int) :
    tarEntries (files.flatMap (entryBytes now) ++ (zeroBlock ++ zeroBlock)) =
      .ok (files.map listedFile) := by
  induction files with
  | nil => exact tarEntries_end
  | cons file files ih =>
    have hfile := hlong file List.mem_cons_self
    have hskip : file.content.length + tarPadding file.content.length ≤ 2147483647 := by
      rw [size_add_tarPadding]
      omega
    have hrest := ih (fun f hf => h f (List.mem_cons_of_mem file hf))
      fun f hf => hlong f (List.mem_cons_of_mem file hf)
    rw [List.flatMap_cons, List.append_assoc, tarEntries_entry (h file List.mem_cons_self),
      checkedNat_ok hskip, hrest]
    rfl

theorem long_of_tarEntries (h : ∀ file ∈ files, file.Plain) (now : Int) {entries : List Bytes}
    (hrun : tarEntries (files.flatMap (entryBytes now) ++ (zeroBlock ++ zeroBlock)) = .ok entries) :
    ∀ file ∈ files, file.content.length ≤ 2147483136 := by
  induction files generalizing entries with
  | nil => nofun
  | cons file files ih =>
    rw [List.flatMap_cons, List.append_assoc, tarEntries_entry (h file List.mem_cons_self)] at hrun
    obtain ⟨skip, hskip, hrest⟩ := Outcome.bind_eq_ok.mp hrun
    obtain ⟨others, hothers, -⟩ := Outcome.map_eq_ok.mp hrest
    refine List.forall_mem_cons.mpr ⟨?_, ih (fun f hf => h f (List.mem_cons_of_mem file hf)) hothers⟩
    by_contra hlong
    have hover : 2147483647 < file.content.length + tarPadding file.content.length := by
      rw [size_add_tarPadding]
      omega
    rw [checkedNat_overflow hover] at hskip
    cases hskip

end Archive

section Creation

variable {env : TarEnv} {s : VfsState} {file : TarFile} {files : List TarFile}
variable {archive stream : Bytes} {printed : List Bytes}

def vmHostPath (env : TarEnv) (s : VfsState) (filename : Bytes) (node : Nat) : Bytes :=
  if s.hostRootDirectory ≠ [] then vfsGetHostPath s node else tempPath env filename node

def Readable (env : TarEnv) (s : VfsState) (archive : Bytes) (file : TarFile) : Prop :=
  ∃ node, vfsFindNode s file.name = .ok (some node) ∧
    Location.resolve (vmHostPath env s file.name node) ≠ Location.resolve archive ∧
      s.host.openRead (vmHostPath env s file.name node) = some file.content

theorem vmFopen_unmapped (hroot : s.hostRootDirectory = []) (h : Readable env s archive file) :
    ∃ said, vmFopen env s file.name = .ok (said, some file.content) := by
  obtain ⟨node, hfind, -, hread⟩ := h
  rw [vmHostPath, if_neg (by simp [hroot])] at hread
  refine ⟨[str "vm_fopen: Opening virtual file (no host mapping): " ++ (file.name ++ [newline])], ?_⟩
  rw [vmFopen, hfind]
  simp only [bind, Except.bind, hroot, ne_eq, not_true_eq_false, if_false, hread]

theorem vmFopen_mapped (hroot : s.hostRootDirectory ≠ []) (h : Readable env s archive file) :
    vmFopen env s file.name = .error .wildPointer := by
  obtain ⟨node, hfind, -, -⟩ := h
  rw [vmFopen, hfind]
  exact if_pos hroot

theorem tarFiles_stored (hroot : s.hostRootDirectory = [])
    (hread : ∀ file ∈ files, Readable env s archive file) (h : ∀ file ∈ files, file.Plain)
    (printed : List Bytes) (stream : Bytes) :
    ∃ said, tarFiles env s printed stream (files.map TarFile.name) =
      .ok (said, stream ++ files.flatMap (entryBytes env.now)) := by
  induction files generalizing printed stream with
  | nil => exact ⟨printed, by rw [List.flatMap_nil, List.append_nil]; rfl⟩
  | cons file files ih =>
    obtain ⟨said, hopen⟩ := vmFopen_unmapped hroot (hread file List.mem_cons_self)
    have hentry := tarEntry_eq (h file List.mem_cons_self) env.now stream
    obtain ⟨others, hrest⟩ := ih (fun f hf => hread f (List.mem_cons_of_mem file hf))
      (fun f hf => h f (List.mem_cons_of_mem file hf))
      (printed ++ (said ++ [str "tar: Adding " ++ (file.name ++ (str " (" ++
        sizeText (ftell file.content)))])) (stream ++ entryBytes env.now file)
    refine ⟨others, ?_⟩
    rw [List.map_cons, tarFiles, hopen]
    simp only [Checked.of, Except.mapError, bind, Except.bind, hentry]
    rw [hrest, List.flatMap_cons, List.append_assoc]

theorem readable_created {host : Host} (hopen : s.host.openWrite archive [] = (true, host))
    (h : Readable env s archive file) : Readable env { s with host := host } archive file := by
  obtain ⟨node, hfind, hne, hread⟩ := h
  refine ⟨node, hfind, hne, ?_⟩
  have hkept := Host.openRead_openWrite s.host archive [] (vmHostPath env s file.name node)
  rw [if_neg fun h => hne h.2, hopen] at hkept
  exact hkept.trans hread

theorem openWrite_writable {h : Host} {path content : Bytes}
    (hwrite : h.writable (Location.resolve path) = true) :
    ∃ host, h.openWrite path content = (true, host) ∧ host.mayRead = h.mayRead := by
  rw [Host.openWrite, if_pos hwrite]
  exact ⟨_, rfl, rfl⟩

theorem tarCommand_creates {options : Bytes} (hoptions : 99 ∈ options)
    (hwrite : s.host.writable (Location.resolve archive) = true)
    (hmay : s.host.mayRead (Location.resolve archive) = true)
    (hroot : s.hostRootDirectory = [])
    (hread : ∀ file ∈ files, Readable env s archive file) (h : ∀ file ∈ files, file.Plain)
    (program : Bytes) :
    ∃ printed t, tarCommand env s (program :: options :: archive :: files.map TarFile.name) =
        .ok (printed, t) ∧ t.host.openRead archive =
          some (files.flatMap (entryBytes env.now) ++ (zeroBlock ++ zeroBlock)) := by
  obtain ⟨host, hopen, hsame⟩ := @openWrite_writable s.host archive [] hwrite
  obtain ⟨said, hfiles⟩ := @tarFiles_stored env { s with host := host } files archive hroot
    (fun f hf => readable_created hopen (hread f hf)) h
    [str "tar: Creating archive " ++ (archive ++ [newline])] []
  refine ⟨said ++ [str "tar: Archive created successfully\n"],
    { s with
      host := host.set (Location.resolve archive)
        (.file (files.flatMap (entryBytes env.now) ++ (zeroBlock ++ zeroBlock))) }, ?_, ?_⟩
  · rw [tarCommand, if_pos hoptions, hopen]
    simp only [hfiles, bind, Except.bind]
    rfl
  · rw [Host.openRead_set_file, if_pos rfl]
    simp only [hsame, hmay, if_true]

theorem tarCommand_lists {t : VfsState} {options : Bytes} (hoptions : 116 ∈ options)
    (hcreate : 99 ∉ options) (hread : t.host.openRead archive = some stream) (program : Bytes)
    (rest : List Bytes) :
    tarCommand env t (program :: options :: archive :: rest) =
      (fun entries => ((str "tar: Contents of " ++ (archive ++ str ":\n")) :: entries, t)) <$>
        tarEntries stream := by
  rw [tarCommand, if_neg hcreate, if_pos hoptions, hread]
  rfl

end Creation

section Law

variable {env : TarEnv} {s : VfsState} {file : TarFile} {files : List TarFile}
variable {archive program options : Bytes}

def TarLists (env : TarEnv) (s : VfsState) (program options archive : Bytes)
    (files : List TarFile) : Prop :=
  ∃ printed t stream,
    tarCommand env s (program :: options :: archive :: files.map TarFile.name) =
      .ok (printed, t) ∧ t.host.openRead archive = some stream ∧ Stored files stream ∧
        ∀ listing, 116 ∈ listing → 99 ∉ listing → ∀ env rest,
          tarCommand env t (program :: listing :: archive :: rest) =
            .ok ((str "tar: Contents of " ++ (archive ++ str ":\n")) :: files.map listedFile, t)

theorem not_created_mapped (hoptions : 99 ∈ options)
    (hwrite : s.host.writable (Location.resolve archive) = true)
    (hroot : s.hostRootDirectory ≠ []) (hfiles : files ≠ [])
    (hread : ∀ file ∈ files, Readable env s archive file) :
    tarCommand env s (program :: options :: archive :: files.map TarFile.name) =
      .error (.fault .wildPointer) := by
  obtain ⟨host, hopen, -⟩ := @openWrite_writable s.host archive [] hwrite
  cases files with
  | nil => exact absurd rfl hfiles
  | cons file files =>
    have hmapped := @vmFopen_mapped env { s with host := host } file archive hroot
      (readable_created hopen (hread file List.mem_cons_self))
    rw [tarCommand, if_pos hoptions, hopen]
    simp only [List.map_cons, tarFiles, hmapped, Checked.of, Except.mapError, bind, Except.bind]

theorem tar_lists_stored_iff (hoptions : 99 ∈ options) (hfiles : files ≠ [])
    (hwrite : s.host.writable (Location.resolve archive) = true)
    (hmay : s.host.mayRead (Location.resolve archive) = true)
    (hread : ∀ file ∈ files, Readable env s archive file) (h : ∀ file ∈ files, file.Plain) :
    TarLists env s program options archive files ↔
      s.hostRootDirectory = [] ∧ ∀ file ∈ files, file.content.length ≤ 2147483136 := by
  constructor
  · rintro ⟨printed, t, stream, hrun, hstream, -, hlists⟩
    by_cases hroot : s.hostRootDirectory = []
    · obtain ⟨printed', t', hcreate, hstored⟩ :=
        tarCommand_creates hoptions hwrite hmay hroot hread h program
      obtain ⟨rfl, rfl⟩ := Prod.mk.inj (Except.ok.inj (hcreate.symm.trans hrun))
      have hlisted := hlists [116] (by decide) (by decide) env []
      rw [tarCommand_lists (by decide) (by decide) hstored] at hlisted
      obtain ⟨entries, hentries, -⟩ := Outcome.map_eq_ok.mp hlisted
      exact ⟨hroot, long_of_tarEntries h env.now hentries⟩
    · rw [not_created_mapped hoptions hwrite hroot hfiles hread] at hrun
      cases hrun
  · rintro ⟨hroot, hlong⟩
    obtain ⟨printed, t, hcreate, hstored⟩ :=
      tarCommand_creates hoptions hwrite hmay hroot hread h program
    refine ⟨printed, t, _, hcreate, hstored, stored_entries h env.now, ?_⟩
    intro listing hlisting hnone env' rest
    rw [tarCommand_lists hlisting hnone hstored, tarEntries_stored h hlong]
    rfl

end Law

section Concrete

def sampleEnv : TarEnv := ⟨some (str "C:\\tmp"), fun _ => str "00000000000000A0", 1700000000⟩

def withTempFiles : VfsState :=
  ran (fun _ _ => true)
    (openHost [(Location.resolve (str "C:\\tmp\\ZoraVM_f_00000000000000A0"), .file fruits),
      (Location.resolve (str "C:\\tmp\\ZoraVM_g_00000000000000A0"), .file (str "kiwi\n"))])
    [.createFile (str "/f"), .createFile (str "/g")]

def withHostRoot : VfsState :=
  ran (fun _ _ => true) (openHost [(Location.resolve (str "C:\\zora"), .directory)])
    [.setHostRoot (str "C:\\zora"), .createFile (str "/f"), .writeFile (str "/f") fruits]

def fruitsFile : TarFile := ⟨str "/f", fruits⟩

def twoFiles : List TarFile := [fruitsFile, ⟨str "/g", str "kiwi\n"⟩]

theorem plain_twoFiles : ∀ file ∈ twoFiles, file.Plain :=
  List.forall_mem_cons.mpr ⟨⟨by decide, by decide +kernel, by decide +kernel⟩,
    List.forall_mem_singleton.mpr ⟨by decide, by decide +kernel, by decide +kernel⟩⟩

theorem fruits_stored_and_listed :
    TarLists sampleEnv withTempFiles (str "tar") (str "-cvf") (str "C:\\a.tar") twoFiles := by
  have hread : ∀ file ∈ twoFiles, Readable sampleEnv withTempFiles (str "C:\\a.tar") file :=
    List.forall_mem_cons.mpr ⟨⟨7, by decide +kernel, by decide +kernel, by decide +kernel⟩,
      List.forall_mem_singleton.mpr ⟨8, by decide +kernel, by decide +kernel, by decide +kernel⟩⟩
  exact (tar_lists_stored_iff (by decide) (by decide) (by decide +kernel) (by decide +kernel) hread
    plain_twoFiles).mpr ⟨by decide +kernel, by decide +kernel⟩

theorem static_path_released : Reachable withHostRoot ∧
    Readable sampleEnv withHostRoot (str "C:\\a.tar") fruitsFile ∧
      (Prod.fst <$> tarCommand sampleEnv withHostRoot
        [str "tar", str "-cvf", str "C:\\a.tar", str "/f"] = .error (.fault .wildPointer)) ∧
        ¬ TarLists sampleEnv withHostRoot (str "tar") (str "-cvf") (str "C:\\a.tar") [fruitsFile] := by
  have hread : Readable sampleEnv withHostRoot (str "C:\\a.tar") fruitsFile :=
    ⟨7, by decide +kernel, by decide +kernel, by decide +kernel⟩
  have hrun : tarCommand sampleEnv withHostRoot
      [str "tar", str "-cvf", str "C:\\a.tar", str "/f"] = .error (.fault .wildPointer) :=
    @not_created_mapped sampleEnv withHostRoot [fruitsFile] (str "C:\\a.tar") (str "tar")
      (str "-cvf") (by decide) (by decide +kernel) (by decide +kernel) (by decide)
      fun file hfile => List.mem_singleton.mp hfile ▸ hread
  have hran := reachableBy_ran (fun _ _ => true)
    (openHost [(Location.resolve (str "C:\\zora"), .directory)])
    [.setHostRoot (str "C:\\zora"), .createFile (str "/f"), .writeFile (str "/f") fruits]
    (by decide +kernel) (by decide +kernel)
  refine ⟨⟨_, hran.mono fun _ _ _ => trivial⟩, hread, by rw [hrun]; rfl, ?_⟩
  rintro ⟨printed, t, stream, hok, -⟩
  cases hok.symm.trans hrun

end Concrete

end ZoraVM.Shell

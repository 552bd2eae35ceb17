import ZoraVM.Foundation.TextMode
import ZoraVM.Network.Numerals

namespace ZoraVM.Devices

open Foundation Network
open Shell (isSpace)
open Unix (isDigit scanInt)

section Source

structure TerminalConfig where
  fontName : Bytes
  fontSize : Int
  cursorStyle : Int
  cursorBlink : Int
  syntaxHighlight : Int
  retroMode : Int
  deriving DecidableEq, Repr

def defaultConfig : TerminalConfig := ⟨str "MS Mincho", 12, 0, 1, 1, 1⟩

def terminalSetFont (config : TerminalConfig) (fontName : Bytes) (size : Int) : TerminalConfig :=
  { config with fontName := clip 64 fontName, fontSize := size }

def fontNameKey : Bytes := str "font_name="
def fontSizeKey : Bytes := str "font_size="
def cursorStyleKey : Bytes := str "cursor_style="
def cursorBlinkKey : Bytes := str "cursor_blink="
def syntaxHighlightKey : Bytes := str "syntax_highlight="
def retroModeKey : Bytes := str "retro_mode="

def savedLines (config : TerminalConfig) : List Bytes :=
  [str "[Terminal]", fontNameKey ++ config.fontName, fontSizeKey ++ intText config.fontSize,
    cursorStyleKey ++ intText config.cursorStyle, cursorBlinkKey ++ intText config.cursorBlink,
    syntaxHighlightKey ++ intText config.syntaxHighlight, retroModeKey ++ intText config.retroMode]

-- terminal_config.ini is opened in text mode.
def terminalSaveConfig (config : TerminalConfig) : Bytes :=
  textWrite (endedLines lineFeed (savedLines config))

-- The literal part of the format of sscanf: it has to begin the line.
def afterKey (key line : Bytes) : Option Bytes :=
  if key.isPrefixOf line then some (line.drop key.length) else none

-- "%s" takes one word and knows nothing of the 64 bytes of font_name.
def scanFontName (line old : Bytes) : Outcome Bytes :=
  match afterKey fontNameKey line with
  | none => .ok old
  | some value =>
    let word := (value.dropWhile isSpace).takeWhile fun c => !isSpace c
    if word = [] then .ok old else if 64 ≤ word.length then .error .bufferOverflow else .ok word

-- "%d" of a number that is out of range is taken to stop at the end of it.
def scanSetting (key line : Bytes) (old : Int) : Int :=
  match (afterKey key line).bind scanInt with
  | none => old
  | some (n, _) => max (-2 ^ 31) (min n (2 ^ 31 - 1))

def loadLine (config : TerminalConfig) (line : Bytes) : Outcome TerminalConfig :=
  if occurs fontNameKey line then do
    let fontName ← scanFontName line config.fontName
    .ok { config with fontName := fontName }
  else if occurs fontSizeKey line then
    .ok { config with fontSize := scanSetting fontSizeKey line config.fontSize }
  else if occurs cursorStyleKey line then
    .ok { config with cursorStyle := scanSetting cursorStyleKey line config.cursorStyle }
  else if occurs cursorBlinkKey line then
    .ok { config with cursorBlink := scanSetting cursorBlinkKey line config.cursorBlink }
  else if occurs syntaxHighlightKey line then
    .ok { config with syntaxHighlight := scanSetting syntaxHighlightKey line config.syntaxHighlight }
  else if occurs retroModeKey line then
    .ok { config with retroMode := scanSetting retroModeKey line config.retroMode }
  else .ok config

def terminalLoadConfig (file : Option Bytes) (config : TerminalConfig) : Outcome TerminalConfig :=
  match file with
  | none => .ok config
  | some bytes =>
    let text := textRead bytes
    (fgetsLines 256 text.length text).foldlM
      (fun config line => loadLine config (line.takeWhile (· ≠ 0))) config

end Source

section Keys

variable {key key' line : Bytes} {b : UInt8} {n old : Int}

theorem occurs_append (key rest : Bytes) : occurs key (key ++ rest) = true := by
  rw [occurs, List.any_eq_true]
  exact ⟨key ++ rest, by simp, by simp⟩

theorem not_occurs (hkey : b ∈ key) (hline : b ∉ line) : occurs key line = false := by
  refine Bool.eq_false_iff.mpr fun hoccurs => hline ?_
  obtain ⟨tail, htail, hprefix⟩ := List.any_eq_true.mp hoccurs
  have hsuffix : tail <:+ line := (List.mem_tails tail line).mp htail
  exact hsuffix.subset ((List.isPrefixOf_iff_prefix.mp hprefix).subset hkey)

theorem other_key (h : ∃ b ∈ key', 97 ≤ b ∧ b ∉ key) (n : Int) :
    occurs key' (key ++ (intText n ++ [lineFeed])) = false := by
  obtain ⟨b, hkey', hletter, hkey⟩ := h
  refine not_occurs hkey' fun hb => ?_
  rcases List.mem_append.mp hb with hb | hb
  · exact hkey hb
  · rcases List.mem_append.mp hb with hb | hb
    · rcases mem_intText hb with rfl | hdigit
      · exact absurd hletter (by decide)
      · exact absurd (UInt8.le_trans hletter (isDigit_bounds hdigit).2) (by decide)
    · rw [List.mem_singleton.mp hb] at hletter
      exact absurd hletter (by decide)

theorem scanSetting_saved (hlow : -2 ^ 31 ≤ n) (hhigh : n < 2 ^ 31) (key : Bytes) (old : Int) :
    scanSetting key (key ++ (intText n ++ [lineFeed])) old = n := by
  have hafter : afterKey key (key ++ (intText n ++ [lineFeed])) = some (intText n ++ [lineFeed]) := by
    rw [afterKey, if_pos (by simp), List.drop_left]
  have hscan : scanInt (intText n ++ [lineFeed]) = some (n, [lineFeed]) :=
    scanInt_intText n (startsOutside_cons.mpr (by decide))
  rw [scanSetting, hafter, Option.bind_some, hscan]
  dsimp only
  omega

end Keys

section Lines

variable {config : TerminalConfig} {n : Int} {name rest : Bytes}

def firstWord (text : Bytes) : Bytes := (text.dropWhile isSpace).takeWhile fun c => !isSpace c

theorem firstWord_ended (name : Bytes) : firstWord (name ++ [lineFeed]) = firstWord name := by
  have hspace : isSpace lineFeed = true := by decide
  unfold firstWord
  induction name with
  | nil => simp [hspace]
  | cons c name ih =>
    by_cases hc : isSpace c = true
    · rw [List.cons_append, List.dropWhile_cons_of_pos hc, List.dropWhile_cons_of_pos hc, ih]
    · rw [List.cons_append, List.dropWhile_cons_of_neg hc, List.dropWhile_cons_of_neg hc,
        ← List.cons_append, List.takeWhile_append]
      split
      · next hall =>
        rw [(List.takeWhile_prefix _).eq_of_length hall]
        simp [hspace]
      · rfl

theorem length_firstWord_le (name : Bytes) : (firstWord name).length ≤ name.length :=
  ((List.takeWhile_sublist _).trans (List.dropWhile_sublist _)).length_le

def namedBy (name old : Bytes) : Bytes := if firstWord name = [] then old else firstWord name

theorem loadLine_fontName (hname : name.length < 64) (config : TerminalConfig) :
    loadLine config (fontNameKey ++ (name ++ [lineFeed])) =
      .ok { config with fontName := namedBy name config.fontName } := by
  have hafter : afterKey fontNameKey (fontNameKey ++ (name ++ [lineFeed])) =
      some (name ++ [lineFeed]) := by
    rw [afterKey, if_pos (by simp), List.drop_left]
  have hword := firstWord_ended name
  have hfits : ¬ 64 ≤ (firstWord name).length := Nat.not_le.mpr
    (Nat.lt_of_le_of_lt (length_firstWord_le name) hname)
  have hscan : scanFontName (fontNameKey ++ (name ++ [lineFeed])) config.fontName =
      .ok (namedBy name config.fontName) := by
    rw [scanFontName, hafter]
    dsimp only
    rw [← firstWord, hword, if_neg hfits, namedBy]
    split <;> rfl
  rw [loadLine, if_pos (occurs_append _ _), hscan]
  rfl

end Lines

section Saving

variable {config config₀ : TerminalConfig} {b : UInt8}

def TerminalConfig.numbers (config : TerminalConfig) : List Int :=
  [config.fontSize, config.cursorStyle, config.cursorBlink, config.syntaxHighlight, config.retroMode]

-- The fields that are read with "%d", in the order in which the loop looks for their keys.
inductive NumberField where
  | fontSize
  | cursorStyle
  | cursorBlink
  | syntaxHighlight
  | retroMode
  deriving DecidableEq

def numberFields : List NumberField := [.fontSize, .cursorStyle, .cursorBlink, .syntaxHighlight, .retroMode]

def NumberField.key : NumberField → Bytes
  | .fontSize => fontSizeKey
  | .cursorStyle => cursorStyleKey
  | .cursorBlink => cursorBlinkKey
  | .syntaxHighlight => syntaxHighlightKey
  | .retroMode => retroModeKey

def NumberField.get (config : TerminalConfig) : NumberField → Int
  | .fontSize => config.fontSize
  | .cursorStyle => config.cursorStyle
  | .cursorBlink => config.cursorBlink
  | .syntaxHighlight => config.syntaxHighlight
  | .retroMode => config.retroMode

def NumberField.set (config : TerminalConfig) (n : Int) : NumberField → TerminalConfig
  | .fontSize => { config with fontSize := n }
  | .cursorStyle => { config with cursorStyle := n }
  | .cursorBlink => { config with cursorBlink := n }
  | .syntaxHighlight => { config with syntaxHighlight := n }
  | .retroMode => { config with retroMode := n }

theorem loadLine_eq {line : Bytes} (hname : occurs fontNameKey line = false) (c : TerminalConfig) :
    loadLine c line =
      match numberFields.find? fun field => occurs field.key line with
      | none => .ok c
      | some field => .ok (field.set c (scanSetting field.key line (field.get c))) := by
  rw [loadLine, hname]
  simp only [numberFields, List.find?_cons, List.find?_nil, Bool.false_eq_true, if_false, NumberField.key]
  cases occurs fontSizeKey line <;> cases occurs cursorStyleKey line <;>
    cases occurs cursorBlinkKey line <;> cases occurs syntaxHighlightKey line <;>
      cases occurs retroModeKey line <;> rfl

theorem keys_apart {field other : NumberField} (h : other ≠ field) :
    ∃ b ∈ other.key, 97 ≤ b ∧ b ∉ field.key := by
  revert h
  cases field <;> cases other <;> decide

theorem font_name_apart (field : NumberField) : ∃ b ∈ fontNameKey, 97 ≤ b ∧ b ∉ field.key := by
  cases field <;> decide

def numberKeys : List Bytes :=
  [fontSizeKey, cursorStyleKey, cursorBlinkKey, syntaxHighlightKey, retroModeKey]

structure Held (config : TerminalConfig) : Prop where
  fits : config.fontName.length < 64
  plain : 0 ∉ config.fontName
  numbers : ∀ n ∈ config.numbers, -2 ^ 31 ≤ n ∧ n < 2 ^ 31

theorem mem_savedLines {line : Bytes} (h : line ∈ savedLines config) :
    line = str "[Terminal]" ∨ line = fontNameKey ++ config.fontName ∨
      ∃ key ∈ numberKeys, ∃ n ∈ config.numbers, line = key ++ intText n := by
  simp only [savedLines, List.mem_cons, List.not_mem_nil, or_false] at h
  obtain rfl | rfl | rfl | rfl | rfl | rfl | rfl := h
  · exact .inl rfl
  · exact .inr (.inl rfl)
  all_goals
    refine .inr (.inr ⟨_, ?_, _, ?_, rfl⟩)
    · simp [numberKeys]
    · simp [TerminalConfig.numbers]

theorem not_mem_savedLines (hb : b ∈ [0, lineFeed, endOfText]) (hname : b ∉ config.fontName) :
    ∀ line ∈ savedLines config, b ∉ line := by
  have hkeys : ∀ b ∈ [0, lineFeed, endOfText], ∀ key ∈ numberKeys, b ∉ key := by
    decide +kernel
  have hfirst : ∀ b ∈ [0, lineFeed, endOfText], b ∉ str "[Terminal]" ∧ b ∉ fontNameKey ∧
      b ≠ 45 ∧ ¬ (48 : UInt8) ≤ b := by decide +kernel
  obtain ⟨hheading, hfont, hminus, hsmall⟩ := hfirst b hb
  intro line hline
  rcases mem_savedLines hline with rfl | rfl | ⟨key, hkey, n, _, rfl⟩
  · exact hheading
  · exact List.not_mem_append hfont hname
  · refine List.not_mem_append (hkeys b hb key hkey) fun hn => ?_
    rcases mem_intText hn with hsign | hdigit
    · exact hminus hsign
    · exact hsmall (isDigit_bounds hdigit).1

theorem length_savedLines (h : Held config) : ∀ line ∈ savedLines config, line.length + 1 < 256 := by
  have hkeys : ∀ key ∈ numberKeys, key.length ≤ 17 := by decide
  have hfont : fontNameKey.length = 10 := by decide
  have hname := h.fits
  intro line hline
  rcases mem_savedLines hline with rfl | rfl | ⟨key, hkey, n, hn, rfl⟩
  · decide
  · rw [List.length_append]
    omega
  · have hlength := length_intText_le (h.numbers n hn).1 (h.numbers n hn).2
    have hkey := hkeys key hkey
    rw [List.length_append]
    omega

theorem foldlM_cut {lines : List Bytes} (h : ∀ line ∈ lines, 0 ∉ line) (config : TerminalConfig) :
    lines.foldlM (fun config line => loadLine config (line.takeWhile (· ≠ 0))) config =
      lines.foldlM loadLine config := by
  induction lines generalizing config with
  | nil => rfl
  | cons line lines ih =>
    have hline : line.takeWhile (· ≠ 0) = line :=
      List.takeWhile_eq_self_iff.mpr fun c hc => by
        simpa using ne_of_mem_of_not_mem hc (h line List.mem_cons_self)
    rw [List.foldlM_cons, List.foldlM_cons, hline]
    exact congrArg _ (funext fun c => ih (fun l hl => h l (List.mem_cons_of_mem line hl)) c)

theorem read_saved (hend : endOfText ∉ config.fontName) :
    textRead (terminalSaveConfig config) = endedLines lineFeed (savedLines config) := by
  rw [terminalSaveConfig, textRead_textWrite, List.takeWhile_eq_self_iff]
  intro c hc
  obtain ⟨line, hline, hin⟩ := List.mem_flatMap.mp hc
  have hother : c ≠ endOfText := by
    rintro rfl
    rcases List.mem_append.mp hin with hin | hin
    · exact not_mem_savedLines (by decide) hend line hline hin
    · exact absurd (List.mem_singleton.mp hin) (by decide)
  simpa using hother

theorem lines_saved (h : Held config) (hline : lineFeed ∉ config.fontName) {fuel : Nat}
    (hfuel : 7 ≤ fuel) :
    fgetsLines 256 fuel (endedLines lineFeed (savedLines config)) =
      (savedLines config).map (· ++ [lineFeed]) :=
  fgetsLines_ended
    (fun line hmem => ⟨not_mem_savedLines (by decide) hline line hmem, length_savedLines h line hmem⟩)
    hfuel

section Settings

variable {n : Int} (hlow : -2 ^ 31 ≤ n) (hhigh : n < 2 ^ 31) (c : TerminalConfig)

theorem loadLine_heading : loadLine c (str "[Terminal]" ++ [lineFeed]) = .ok c := by
  have hfont : occurs fontNameKey (str "[Terminal]" ++ [lineFeed]) = false := by decide
  have hnone : numberFields.find? (fun field => occurs field.key (str "[Terminal]" ++ [lineFeed])) =
      none := by decide
  rw [loadLine_eq hfont, hnone]

include hlow hhigh

theorem loadLine_number (field : NumberField) :
    loadLine c (field.key ++ (intText n ++ [lineFeed])) = .ok (field.set c n) := by
  have hname := other_key (font_name_apart field) n
  have hfind : numberFields.find? (fun other => occurs other.key (field.key ++ (intText n ++ [lineFeed]))) =
      some field := by
    cases hfound : numberFields.find? fun other =>
        occurs other.key (field.key ++ (intText n ++ [lineFeed])) with
    | none =>
      have hmem : field ∈ numberFields := by cases field <;> decide
      exact absurd (occurs_append field.key _) (List.find?_eq_none.mp hfound field hmem)
    | some other =>
      have hoccurs := List.find?_some hfound
      by_contra hother
      rw [other_key (keys_apart fun h => hother (congrArg some h)) n] at hoccurs
      cases hoccurs
  rw [loadLine_eq hname, hfind]
  simp only [scanSetting_saved hlow hhigh]

end Settings

theorem foldlM_fields (h : Held config) (fields : List NumberField) (c : TerminalConfig) :
    (fields.map fun field => field.key ++ (intText (field.get config) ++ [lineFeed])).foldlM loadLine c =
      .ok (fields.foldl (fun c field => field.set c (field.get config)) c) := by
  induction fields generalizing c with
  | nil => rfl
  | cons field fields ih =>
    have hmem : field.get config ∈ config.numbers := by cases field <;> simp [TerminalConfig.numbers, NumberField.get]
    obtain ⟨hlow, hhigh⟩ := h.numbers _ hmem
    rw [List.map_cons, List.foldlM_cons, loadLine_number hlow hhigh]
    exact ih _

theorem foldlM_saved (h : Held config) (config₀ : TerminalConfig) :
    ((savedLines config).map (· ++ [lineFeed])).foldlM loadLine config₀ =
      .ok { config with fontName := namedBy config.fontName config₀.fontName } := by
  have hsaved : (savedLines config).map (· ++ [lineFeed]) =
      (str "[Terminal]" ++ [lineFeed]) :: (fontNameKey ++ (config.fontName ++ [lineFeed])) ::
        numberFields.map fun field => field.key ++ (intText (field.get config) ++ [lineFeed]) := by
    simp [savedLines, numberFields, NumberField.key, NumberField.get]
  rw [hsaved]
  simp only [List.foldlM_cons, bind, Except.bind, loadLine_heading, loadLine_fontName h.fits,
    foldlM_fields h]
  rfl

theorem load_saved (h : Held config) (hline : lineFeed ∉ config.fontName)
    (hend : endOfText ∉ config.fontName) (config₀ : TerminalConfig) :
    terminalLoadConfig (some (terminalSaveConfig config)) config₀ =
      .ok { config with fontName := namedBy config.fontName config₀.fontName } := by
  have hfuel : 7 ≤ (endedLines lineFeed (savedLines config)).length := by
    simp [endedLines, savedLines]
    omega
  have hplain : ∀ line ∈ (savedLines config).map (· ++ [lineFeed]), 0 ∉ line := by
    intro line hmem
    obtain ⟨saved, hsaved, rfl⟩ := List.mem_map.mp hmem
    exact List.not_mem_append (not_mem_savedLines (by decide) h.plain saved hsaved) (by decide)
  rw [terminalLoadConfig, read_saved hend, lines_saved h hline hfuel, foldlM_cut hplain, foldlM_saved h]

end Saving

section Words

variable {name line : Bytes} {c c' config : TerminalConfig} {b : UInt8}

def OneWord (name : Bytes) : Prop := name ≠ [] ∧ ∀ b ∈ name, isSpace b = false ∧ b ≠ endOfText

theorem OneWord.not_mem (h : OneWord name) : lineFeed ∉ name ∧ endOfText ∉ name :=
  ⟨fun hb => absurd (h.2 lineFeed hb).1 (by decide), fun hb => (h.2 endOfText hb).2 rfl⟩

theorem OneWord.firstWord_eq (h : OneWord name) : firstWord name = name := by
  have hdrop : name.dropWhile isSpace = name := by
    cases name with
    | nil => rfl
    | cons c name =>
      have hc := (h.2 c List.mem_cons_self).1
      exact List.dropWhile_cons_of_neg (by simp [hc])
  rw [firstWord, hdrop]
  exact List.takeWhile_eq_self_iff.mpr fun b hb => by simp [(h.2 b hb).1]

theorem oneWord_firstWord (hword : firstWord name ≠ []) (hend : endOfText ∉ name) :
    OneWord (firstWord name) := by
  refine ⟨hword, fun b hb => ⟨?_, ?_⟩⟩
  · simpa using List.mem_takeWhile_imp hb
  · have hin : b ∈ name := (List.dropWhile_sublist _).subset ((List.takeWhile_sublist _).subset hb)
    exact ne_of_mem_of_not_mem hin hend

theorem scanFontName_ok {old : Bytes} (hend : endOfText ∉ line)
    (h : scanFontName line old = .ok name) : name = old ∨ OneWord name := by
  rw [scanFontName] at h
  split at h
  · exact .inl (Except.ok.inj h).symm
  · next value hvalue =>
    have hsub : value ⊆ line := by
      rw [afterKey] at hvalue
      split at hvalue
      · exact Option.some.inj hvalue ▸ List.drop_subset _ _
      · exact absurd hvalue (by simp)
    dsimp only at h
    rw [← firstWord] at h
    split at h
    · exact .inl (Except.ok.inj h).symm
    · next hword =>
      split at h
      · exact absurd h (by simp)
      · obtain rfl := Except.ok.inj h
        exact .inr (oneWord_firstWord hword fun hb => hend (hsub hb))

theorem loadLine_ok (hend : endOfText ∉ line) (h : loadLine c line = .ok c') :
    c'.fontName = c.fontName ∨ OneWord c'.fontName := by
  rw [loadLine] at h
  split at h
  · obtain ⟨name, hname, hc⟩ := Outcome.bind_eq_ok.mp h
    obtain rfl := Except.ok.inj hc
    exact scanFontName_ok hend hname
  · refine .inl ?_
    split_ifs at h <;> exact Except.ok.inj h ▸ rfl

theorem terminalLoadConfig_ok {file : Option Bytes} (h : terminalLoadConfig file c = .ok c') :
    c'.fontName = c.fontName ∨ OneWord c'.fontName := by
  cases file with
  | none => exact .inl (Except.ok.inj h ▸ rfl)
  | some bytes =>
    refine Outcome.foldlM_ok (P := fun t => t.fontName = c.fontName ∨ OneWord t.fontName) ?_
      (.inl rfl) h
    intro s line s' hline hs hload
    have hend : endOfText ∉ line.takeWhile (· ≠ 0) := fun hb =>
      endOfText_not_mem_textRead bytes
        (mem_fgetsLines hline ((List.takeWhile_sublist _).subset hb))
    rcases loadLine_ok hend hload with hsame | hword
    · rwa [hsame]
    · exact .inr hword

theorem config_restored_iff (h : Held config) :
    (∀ config₀, terminalLoadConfig (some (terminalSaveConfig config)) config₀ = .ok config) ↔
      OneWord config.fontName := by
  constructor
  · intro hall
    have hx : OneWord (str "x") := ⟨by decide, by decide +kernel⟩
    rcases terminalLoadConfig_ok (hall { config with fontName := str "x" }) with hname | hword
    · rwa [hname]
    · exact hword
  · intro hword config₀
    obtain ⟨hline, hend⟩ := hword.not_mem
    have hname : namedBy config.fontName config₀.fontName = config.fontName := by
      rw [namedBy, hword.firstWord_eq, if_neg hword.1]
    rw [load_saved h hline hend, hname]

theorem consolas_restored :
    Held (terminalSetFont defaultConfig (str "Consolas") 14) ∧
      ∀ config₀, terminalLoadConfig
        (some (terminalSaveConfig (terminalSetFont defaultConfig (str "Consolas") 14))) config₀ =
          .ok (terminalSetFont defaultConfig (str "Consolas") 14) := by
  have hheld : Held (terminalSetFont defaultConfig (str "Consolas") 14) :=
    ⟨by decide, by decide, by decide⟩
  have hword : OneWord (terminalSetFont defaultConfig (str "Consolas") 14).fontName :=
    ⟨by decide, by decide +kernel⟩
  exact ⟨hheld, (config_restored_iff hheld).mpr hword⟩

example : terminalLoadConfig (some (terminalSaveConfig defaultConfig)) defaultConfig =
    .ok { defaultConfig with fontName := str "MS" } := by
  decide +kernel

end Words

end ZoraVM.Devices

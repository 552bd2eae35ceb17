import Mathlib.Data.List.TakeWhile
import ZoraVM.Network.VirtualNetwork

namespace ZoraVM.Network

open Foundation
open Unix (scanInt isDigit)

section Url

def atSign : UInt8 := 64
def closingBracket : UInt8 := 93

-- What ends the authority: '/', '?' and '#'.
def authorityEnds : Bytes := [slash, 63, 35]

def authority (start : Bytes) : Bytes := start.takeWhile (· ∉ authorityEnds)

def hostPort (start : Bytes) : Bytes :=
  match splitLast atSign (authority start) with
  | some (_, rest) => rest
  | none => authority start

-- What follows the ':' of the port; an address in brackets has colons of its own.
def portText (start : Bytes) : Option Bytes :=
  match splitLast colon (hostPort start) with
  | some (_, text) => if closingBracket ∈ text then none else some text
  | none => none

def decimal (digits : Bytes) : Nat := digits.foldl (fun n c => 10 * n + (c.toNat - 48)) 0

def isPortNumber (text : Bytes) : Bool :=
  text.all isDigit && decide (1 ≤ decimal text) && decide (decimal text ≤ 65535)

-- The port a URL asks for; `none` where its authority names none that exists.
def rightPort (url : Bytes) : Option Int :=
  match portText (urlStart url) with
  | none => some (defaultPort url)
  | some [] => some (defaultPort url)
  | some text => if isPortNumber text then some (decimal text) else none

def PlainPort (start : Bytes) : Prop :=
  ∃ host text, authority start = host ++ colon :: text ∧ colon ∉ host ∧ text ≠ [] ∧
    isPortNumber text = true

def ChancePort (url : Bytes) : Prop :=
  hasPort (urlStart url) = true ∧
    (∀ host text, authority (urlStart url) = host ++ colon :: text → colon ∉ host →
      portText (urlStart url) ≠ some text) ∧
    rightPort url =
      some (atoi ((urlStart url).drop (((urlStart url).takeWhile (· ≠ colon)).length + 1)))

def PortReadable (url : Bytes) : Prop :=
  hasPort (urlStart url) = false ∨ PlainPort (urlStart url) ∨ ChancePort url

end Url

section Policy

-- Interface, outbound traffic, name resolution and the port: all of them.
def egressAllowed (net : VirtualNetwork) (port : Int) : Bool :=
  net.virtualInterfaceUp && net.allowOutbound && net.allowDns && networkIsPortAllowed (some net) port

structure HttpEnforced (vnet : Option VirtualNetwork) (url method : Bytes) : Prop where
  connects : ∀ w host port, (host, port) ∈ (networkHttpRequest vnet w url method).connects →
    (∃ net, vnet = some net ∧ egressAllowed net port = true) ∧ rightPort url = some port
  succeeds : ∀ w, (networkHttpRequest vnet w url method).answer = .ok 0 →
    (networkHttpRequest vnet w url method).connects ≠ []

def ConnectEnforced (vnet : Option VirtualNetwork) (host : Bytes) (port protocol : Int) : Prop :=
  ∀ w, networkSimulateConnect vnet w host port protocol = 0 →
    ∃ net, vnet = some net ∧ egressAllowed net port = true

-- The flags that network_http_request reads.
def passesHttp (net : VirtualNetwork) (url : Bytes) : Bool :=
  net.natEnabled && (!isHttps url || net.allowHttps) && (!isHttp url || net.allowHttp) &&
    (isHttp url || isHttps url)

end Policy

section Port

variable {url start : Bytes}

theorem isDigit_bounds {c : UInt8} (h : isDigit c = true) : 48 ≤ c ∧ c ≤ 57 := by
  simpa [isDigit] using h

theorem scanInt_of_digits {digits rest : Bytes} (hne : digits ≠ [])
    (hall : ∀ c ∈ digits, isDigit c = true)
    (hrest : ∀ c, rest.head? = some c → isDigit c = false) :
    scanInt (digits ++ rest) = some ((decimal digits : Int), rest) := by
  obtain ⟨d, ds, rfl⟩ := List.exists_cons_of_ne_nil hne
  have hd := isDigit_bounds (hall d List.mem_cons_self)
  have hspace : Shell.isSpace d = false := by
    simp only [Shell.isSpace, Bool.or_eq_false_iff, beq_eq_false_iff_ne, Bool.and_eq_false_iff,
      decide_eq_false_iff_not]
    constructor
    · rintro rfl
      exact absurd hd.1 (by decide)
    · right
      intro hle
      exact absurd (UInt8.le_trans hd.1 hle) (by decide)
  have hminus : d ≠ 45 := by
    rintro rfl
    exact absurd hd.1 (by decide)
  have hplus : d ≠ 43 := by
    rintro rfl
    exact absurd hd.1 (by decide)
  have hgot : (d :: ds ++ rest).takeWhile isDigit = d :: ds := by
    rw [List.takeWhile_append_of_pos hall]
    cases rest with
    | nil => simp
    | cons c rest => simp [hrest c rfl]
  have hskip : (d :: ds ++ rest).dropWhile Shell.isSpace = d :: ds ++ rest := by
    simp [hspace]
  have hhead : (d :: ds ++ rest).head? = some d := rfl
  simp only [scanInt, hskip, hhead, Option.some.injEq, hminus, hplus, or_self, if_false, hgot,
    List.cons_ne_nil, List.drop_left]
  rfl

theorem atoi_of_digits {digits rest : Bytes} (hne : digits ≠ [])
    (hall : ∀ c ∈ digits, isDigit c = true) (hsmall : decimal digits ≤ 65535)
    (hrest : ∀ c, rest.head? = some c → isDigit c = false) :
    atoi (digits ++ rest) = decimal digits := by
  rw [atoi, scanInt_of_digits hne hall hrest]
  simp only
  omega

theorem atoi_of_end {rest : Bytes} (h : ∀ c, rest.head? = some c → c ∈ authorityEnds) :
    atoi rest = 0 := by
  cases rest with
  | nil => decide
  | cons c rest =>
    have hc := h c rfl
    simp only [authorityEnds, List.mem_cons, List.not_mem_nil, or_false] at hc
    rcases hc with rfl | rfl | rfl <;> rfl

theorem authority_append (start : Bytes) : ∃ rest, start = authority start ++ rest ∧
    ∀ c, rest.head? = some c → c ∈ authorityEnds := by
  refine ⟨start.dropWhile (· ∉ authorityEnds), (List.takeWhile_append_dropWhile).symm, ?_⟩
  intro c hc
  have hnot := List.head?_dropWhile_not (fun c => decide (c ∉ authorityEnds)) start
  rw [hc] at hnot
  simpa using hnot

theorem takeWhile_until {c : UInt8} {before after : Bytes} (h : c ∉ before) :
    (before ++ c :: after).takeWhile (· ≠ c) = before := by
  rw [List.takeWhile_append_of_pos fun x hx => by simpa using ne_of_mem_of_not_mem hx h]
  simp

theorem first_split_unique {c : UInt8} {a b a' b' : Bytes} (ha : c ∉ a) (ha' : c ∉ a')
    (h : a ++ c :: b = a' ++ c :: b') : a = a' ∧ b = b' := by
  have hfirst : a = a' := by rw [← takeWhile_until ha, h, takeWhile_until ha']
  subst hfirst
  exact ⟨rfl, (List.cons_eq_cons.mp (List.append_cancel_left h)).2⟩

theorem not_mem_authority (h : hasPort start = false) : colon ∉ authority start := by
  intro hin
  have hslash : colon ∈ start.takeWhile (· ≠ slash) := by
    obtain ⟨rest, hstart, hrest⟩ := authority_append start
    have hall : ∀ c ∈ authority start, c ≠ slash := by
      intro c hc
      have hends : c ∉ authorityEnds := by simpa using List.mem_takeWhile_imp hc
      exact fun hcs => hends (by simp [hcs, authorityEnds])
    rw [hstart, List.takeWhile_append_of_pos (by simpa using hall)]
    exact List.mem_append_left _ hin
  exact decide_eq_false_iff_not.mp h hslash

theorem mem_hostPort {c : UInt8} (h : c ∈ hostPort start) : c ∈ authority start := by
  unfold hostPort at h
  split at h
  · next hsplit =>
    rw [(splitLast_some hsplit).1]
    exact List.mem_append_right _ (List.mem_cons_of_mem _ h)
  · exact h

theorem portText_of_no_colon (h : colon ∉ authority start) : portText start = none := by
  have hnone : splitLast colon (hostPort start) = none :=
    splitLast_eq_none.mpr fun hin => h (mem_hostPort hin)
  rw [portText, hnone]

theorem portText_of_digits {host text : Bytes} (h : authority start = host ++ colon :: text)
    (hall : ∀ c ∈ text, isDigit c = true) : portText start = some text := by
  have hnot : ∀ c : UInt8, isDigit c = false → c ∉ text :=
    fun c hc hin => Bool.false_ne_true (hc.symm.trans (hall c hin))
  have hne : atSign ≠ colon := by decide
  have hlast : ∀ b, splitLast colon (b ++ colon :: text) = some (b, text) :=
    fun b => splitLast_append (hnot colon (by decide))
  have hshape : ∃ b, hostPort start = b ++ colon :: text := by
    unfold hostPort
    cases hsplit : splitLast atSign host with
    | none =>
      have hat : atSign ∉ host ++ colon :: text := by
        have hhost := splitLast_eq_none.mp hsplit
        have htext := hnot atSign (by decide)
        simp [hhost, htext, hne]
      rw [h, splitLast_eq_none.mpr hat]
      exact ⟨host, rfl⟩
    | some ends =>
      obtain ⟨hhost, hrest⟩ := splitLast_some hsplit
      have hat : atSign ∉ ends.2 ++ colon :: text := by
        have htext := hnot atSign (by decide)
        simp [hrest, htext, hne]
      rw [h, hhost, List.append_assoc, List.cons_append, splitLast_append hat]
      exact ⟨ends.2, rfl⟩
  obtain ⟨b, hb⟩ := hshape
  rw [portText, hb, hlast b]
  exact if_neg (hnot closingBracket (by decide))

theorem isPortNumber_iff {text : Bytes} : isPortNumber text = true ↔
    (∀ c ∈ text, isDigit c = true) ∧ 1 ≤ decimal text ∧ decimal text ≤ 65535 := by
  simp [isPortNumber, List.all_eq_true, and_assoc]

theorem defaultPort_ne_zero (url : Bytes) : defaultPort url ≠ 0 := by
  unfold defaultPort
  split <;> decide

theorem rightPort_after_host {host text : Bytes} (hhost : colon ∉ host)
    (h : authority (urlStart url) = host ++ colon :: text)
    (hport : portText (urlStart url) = some text) :
    rightPort url =
        some (atoi ((urlStart url).drop (((urlStart url).takeWhile (· ≠ colon)).length + 1))) ↔
      text ≠ [] ∧ isPortNumber text = true := by
  obtain ⟨rest, hstart, hrest⟩ := authority_append (urlStart url)
  have hsplit : urlStart url = host ++ colon :: (text ++ rest) := by
    rw [hstart, h, List.append_assoc, List.cons_append]
  have hafter : (urlStart url).drop (((urlStart url).takeWhile (· ≠ colon)).length + 1) =
      text ++ rest := by
    rw [hsplit, takeWhile_until hhost, ← List.drop_drop, List.drop_left]
    rfl
  rw [hafter, rightPort, hport]
  cases text with
  | nil =>
    simp only [List.nil_append, atoi_of_end hrest, Option.some.injEq]
    exact iff_of_false (defaultPort_ne_zero url) fun hne => hne.1 rfl
  | cons d ds =>
    simp only
    cases hnumber : isPortNumber (d :: ds) with
    | false => simp
    | true =>
      obtain ⟨hall, _, hsmall⟩ := isPortNumber_iff.mp hnumber
      have hnext : ∀ c, rest.head? = some c → isDigit c = false := by
        intro c hc
        have hends := hrest c hc
        simp only [authorityEnds, List.mem_cons, List.not_mem_nil, or_false] at hends
        rcases hends with rfl | rfl | rfl <;> decide
      rw [atoi_of_digits (List.cons_ne_nil d ds) hall hsmall hnext]
      simp

theorem rightPort_requestPort_iff :
    rightPort url = some (requestPort url) ↔ PortReadable url := by
  unfold PortReadable requestPort
  cases hport : hasPort (urlStart url) with
  | false =>
    have hnone := portText_of_no_colon (not_mem_authority hport)
    simp [rightPort, hnone, hport]
  | true =>
    simp only [if_true, Bool.true_eq_false, false_or, hport]
    by_cases hfirst : ∃ host text, authority (urlStart url) = host ++ colon :: text ∧
        colon ∉ host ∧ portText (urlStart url) = some text
    · obtain ⟨host, text, h, hhost, htext⟩ := hfirst
      rw [rightPort_after_host hhost h htext]
      constructor
      · exact fun hgood => .inl ⟨host, text, h, hhost, hgood⟩
      · rintro (⟨host', text', h', hhost', hgood⟩ | ⟨_, hother, _⟩)
        · obtain ⟨_, rfl⟩ := first_split_unique hhost hhost' (h.symm.trans h')
          exact hgood
        · exact absurd htext (hother host text h hhost)
    · constructor
      · intro hright
        refine .inr ⟨hport, fun host text h hhost htext => ?_, hright⟩
        exact hfirst ⟨host, text, h, hhost, htext⟩
      · rintro (⟨host, text, h, hhost, _, hnumber⟩ | ⟨_, _, hright⟩)
        · have htext := portText_of_digits h (isPortNumber_iff.mp hnumber).1
          exact absurd ⟨host, text, h, hhost, htext⟩ hfirst
        · exact hright

end Port

section Enforcement

variable {vnet : Option VirtualNetwork} {w : Winsock} {url method host : Bytes} {port protocol : Int}

def obliging : Winsock := ⟨true, fun host _ => some host, fun _ => true, fun _ => true⟩

theorem networkHttpRequest_cases (vnet : Option VirtualNetwork) (w : Winsock) (url method : Bytes) :
    networkHttpRequest vnet w url method = refused ∨
      ∃ net address, vnet = some net ∧ passesHttp net url = true ∧
        networkHttpRequest vnet w url method = ⟨[(requestHost url, requestPort url)],
          if w.connect address then sendRequest w url method else .ok (-1)⟩ := by
  cases vnet with
  | none => exact .inl rfl
  | some net =>
    simp only [networkHttpRequest]
    split
    · exact .inl rfl
    · next hnat =>
      split
      · exact .inl rfl
      · next hhttps =>
        split
        · exact .inl rfl
        · next hhttp =>
          split
          · exact .inl rfl
          · next hscheme =>
            split
            · exact .inl rfl
            · split
              · exact .inl rfl
              · next address _ =>
                refine .inr ⟨net, address, rfl, ?_, rfl⟩
                rw [passesHttp]
                revert hnat hhttps hhttp hscheme
                cases isHttps url <;> cases isHttp url <;> simp +contextual

theorem connects_of_success (h : (networkHttpRequest vnet w url method).answer = .ok 0) :
    (networkHttpRequest vnet w url method).connects ≠ [] := by
  rcases networkHttpRequest_cases vnet w url method with heq | ⟨_, _, _, _, heq⟩
  · rw [heq] at h
    exact absurd (Except.ok.inj h) (by decide)
  · rw [heq]
    exact List.cons_ne_nil _ _

theorem connects_obliging {net : VirtualNetwork} (hpass : passesHttp net url = true) :
    (networkHttpRequest (some net) obliging url method).connects =
      [(requestHost url, requestPort url)] := by
  simp only [passesHttp, Bool.and_eq_true, Bool.or_eq_true, Bool.not_eq_true'] at hpass
  obtain ⟨⟨⟨hnat, hhttps⟩, hhttp⟩, hscheme⟩ := hpass
  have hsecure : (isHttps url && !net.allowHttps) = false := by
    rcases hhttps with h | h <;> simp [h]
  have hplain : (isHttp url && !net.allowHttp) = false := by
    rcases hhttp with h | h <;> simp [h]
  have hneither : (!isHttp url && !isHttps url) = false := by
    rcases hscheme with h | h <;> simp [h]
  simp [networkHttpRequest, hnat, hsecure, hplain, hneither, obliging]

theorem httpEnforced_iff : HttpEnforced vnet url method ↔
    ∀ net, vnet = some net → passesHttp net url = true →
      PortReadable url ∧ ∃ port, rightPort url = some port ∧ egressAllowed net port = true := by
  constructor
  · rintro henforced net rfl hpass
    have hmem : (requestHost url, requestPort url) ∈
        (networkHttpRequest (some net) obliging url method).connects := by
      rw [connects_obliging hpass]
      exact List.mem_singleton_self _
    obtain ⟨⟨_, hnet, hallowed⟩, hright⟩ := henforced.connects _ _ _ hmem
    obtain rfl := Option.some.inj hnet
    exact ⟨rightPort_requestPort_iff.mp hright, _, hright, hallowed⟩
  · intro hcond
    refine ⟨fun w host port hmem => ?_, fun w => connects_of_success⟩
    rcases networkHttpRequest_cases vnet w url method with heq | ⟨net, _, hnet, hpass, heq⟩
    · rw [heq] at hmem
      cases hmem
    · rw [heq] at hmem
      obtain ⟨rfl, rfl⟩ := Prod.mk.inj (List.mem_singleton.mp hmem)
      obtain ⟨hreadable, port, hport, hallowed⟩ := hcond net hnet hpass
      have hright := rightPort_requestPort_iff.mpr hreadable
      obtain rfl := Option.some.inj (hright.symm.trans hport)
      exact ⟨⟨net, hnet, hallowed⟩, hright⟩

theorem networkSimulateConnect_iff :
    networkSimulateConnect vnet w host port protocol = 0 ↔
      ∃ net, vnet = some net ∧ net.virtualInterfaceUp = true ∧
        networkIsPortAllowed vnet port = true ∧ (networkResolveDns vnet w host 16).isSome = true := by
  cases vnet with
  | none => simp [networkSimulateConnect]
  | some net =>
    simp only [networkSimulateConnect, Option.some.injEq, exists_eq_left']
    cases net.virtualInterfaceUp <;> cases networkIsPortAllowed (some net) port <;>
      cases networkResolveDns (some net) w host 16 <;> simp

theorem connectEnforced_iff : ConnectEnforced vnet host port protocol ↔
    ∀ net, vnet = some net → net.virtualInterfaceUp = true → net.allowDns = true →
      networkIsPortAllowed vnet port = true → net.allowOutbound = true := by
  constructor
  · rintro henforced net rfl hup hdns hport
    have hresolved : (networkResolveDns (some net) obliging host 16).isSome = true := by
      simp [networkResolveDns, hdns, obliging]
    obtain ⟨_, hnet, hallowed⟩ := henforced obliging
      (networkSimulateConnect_iff.mpr ⟨net, rfl, hup, hport, hresolved⟩)
    obtain rfl := Option.some.inj hnet
    simp only [egressAllowed, Bool.and_eq_true] at hallowed
    exact hallowed.1.1.2
  · intro hcond w hzero
    obtain ⟨net, rfl, hup, hport, hresolved⟩ := networkSimulateConnect_iff.mp hzero
    have hdns : net.allowDns = true := by
      by_contra hno
      simp [networkResolveDns, Bool.eq_false_iff.mpr hno] at hresolved
    refine ⟨net, rfl, ?_⟩
    simp [egressAllowed, hup, hdns, hport, hcond net rfl hup hdns hport]

theorem egress_enforced_iff :
    (HttpEnforced vnet url method ∧ ConnectEnforced vnet host port protocol) ↔
      ∀ net, vnet = some net →
        (passesHttp net url = true → PortReadable url ∧
          ∃ asked, rightPort url = some asked ∧ egressAllowed net asked = true) ∧
        (net.virtualInterfaceUp = true → net.allowDns = true →
          networkIsPortAllowed vnet port = true → net.allowOutbound = true) := by
  rw [httpEnforced_iff, connectEnforced_iff]
  constructor
  · exact fun h net hnet => ⟨h.1 net hnet, h.2 net hnet⟩
  · exact fun h => ⟨fun net hnet => (h net hnet).1, fun net hnet => (h net hnet).2⟩

-- The policy that network_init sets.
def initialNetwork : VirtualNetwork := ⟨true, true, true, true, true, true, true⟩

theorem blocked_port_reached :
    ¬ ∀ (vnet : Option VirtualNetwork) (url method host : Bytes) (port protocol : Int),
      HttpEnforced vnet url method ∧ ConnectEnforced vnet host port protocol := by
  intro hall
  obtain ⟨hrequest, _⟩ :=
    hall (some initialNetwork) (str "http://example.com:23/") (str "GET") (str "example.com") 80 1
  obtain ⟨⟨net, hnet, hallowed⟩, _⟩ := hrequest.connects obliging (str "example.com") 23 (by decide)
  obtain rfl := Option.some.inj hnet
  exact absurd hallowed (by decide)

end Enforcement

end ZoraVM.Network

import Mathlib.Data.Nat.Digits.Defs
import IscsiS3.Config

/-! The portals that discovery lists: how an entry of the configuration becomes an address with a
port. -/

namespace IscsiS3

def rsplitOnce (c : Char) : Str → Option (Str × Str)
  | [] => none
  | x :: s => match rsplitOnce c s with
    | some (front, rest) => some (x :: front, rest)
    | none => if x = c then some ([], s) else none

def splitOnce (part : Str) : Str → Option (Str × Str)
  | [] => none
  | x :: s =>
    if part <+: x :: s then some ([], (x :: s).drop part.length)
    else (splitOnce part s).map fun (front, rest) => (x :: front, rest)

def decimalValue (c : Char) : Option Nat :=
  if '0' ≤ c ∧ c ≤ '9' then some (c.toNat - '0'.toNat) else none

def parseU16 (s : Str) : Option Nat :=
  if unsigned s = [] then none
  else match (unsigned s).mapM decimalValue with
    | none => none
    | some digits => if Radix.decode 10 digits < 2 ^ 16 then some (Radix.decode 10 digits) else none

def decimal (n : Nat) : Str :=
  if n = 0 then ['0'] else (Nat.digits 10 n).reverse.map hexDigit

def looksLikeHostPort (s : Str) : Bool :=
  match s with
  | '[' :: rest => decide ("]:".toList <:+: rest)
  | _ => match rsplitOnce ':' s with
    | some (_, port) => (parseU16 port).isSome
    | none => false

def splitHostPort (addr : Str) : Except String (Str × Nat) :=
  match addr with
  | '[' :: rest => match splitOnce "]:".toList rest with
    | none => .error ("invalid address: " ++ String.ofList addr)
    | some (host, portPart) => match parseU16 portPart with
      | none => .error ("invalid port in address: " ++ String.ofList addr)
      | some port => .ok ('[' :: host ++ [']'], port)
  | _ => match rsplitOnce ':' addr with
    | none => .error ("invalid address: " ++ String.ofList addr)
    | some (host, portS) => match parseU16 portS with
      | none => .error ("invalid port in address: " ++ String.ofList addr)
      | some port => .ok (host, port)

def formatHostPort (host : Str) (port : Nat) : Str :=
  if ':' ∈ host ∧ host.head? ≠ some '[' then '[' :: host ++ "]:".toList ++ decimal port
  else host ++ ':' :: decimal port

def resolveAdvertise (advertise bind : Str) : Except String Str :=
  if looksLikeHostPort advertise then .ok advertise
  else match splitHostPort bind with
    | .error e => .error e
    | .ok (_, port) => .ok (formatHostPort advertise port)

/-- The entries of `portals`, or else the one of `advertise`. -/
def resolvePortals (cfg : Config) : Except String (List Str) :=
  if cfg.portals ≠ [] then cfg.portals.mapM fun p => resolveAdvertise p cfg.bind
  else match cfg.advertise with
    | some adv => (resolveAdvertise adv cfg.bind).map ([·])
    | none => .ok []

variable {c : Char} {digits : List Nat} {bind : Entry}

theorem rsplitOnce_eq_none {s : Str} : rsplitOnce c s = none ↔ c ∉ s := by
  induction s with
  | nil => simp [rsplitOnce]
  | cons x s ih =>
    rw [rsplitOnce]
    cases hs : rsplitOnce c s with
    | some parts =>
      have hmem : c ∈ s := by
        by_contra hnot
        rw [ih.mpr hnot] at hs
        cases hs
      simp [hmem]
    | none =>
      have hnot := ih.mp hs
      by_cases hx : x = c
      · simp [hx]
      · simp [hx, hnot, Ne.symm hx]

theorem rsplitOnce_append (front : Str) {rest : Str} (h : c ∉ rest) :
    rsplitOnce c (front ++ c :: rest) = some (front, rest) := by
  induction front with
  | nil => rw [List.nil_append, rsplitOnce, rsplitOnce_eq_none.mpr h, if_pos rfl]
  | cons x front ih => rw [List.cons_append, rsplitOnce, ih]

theorem rsplitOnce_eq_some {s front rest : Str} (h : rsplitOnce c s = some (front, rest)) :
    s = front ++ c :: rest ∧ c ∉ rest := by
  induction s generalizing front with
  | nil => cases h
  | cons x s ih =>
    rw [rsplitOnce] at h
    cases hs : rsplitOnce c s with
    | some parts =>
      rw [hs] at h
      cases h
      obtain ⟨rfl, hrest⟩ := ih hs
      exact ⟨rfl, hrest⟩
    | none =>
      rw [hs] at h
      obtain ⟨rfl, heq⟩ := Option.ite_none_right_eq_some.mp h
      cases heq
      exact ⟨rfl, rsplitOnce_eq_none.mp hs⟩

theorem splitOnce_append {a b : Char} {front : Str} (rest : Str) (h : a ∉ front) :
    splitOnce [a, b] (front ++ a :: b :: rest) = some (front, rest) := by
  induction front with
  | nil =>
    have hfront : [a, b] <+: a :: b :: rest := List.prefix_append [a, b] rest
    rw [List.nil_append, splitOnce, if_pos hfront]
    rfl
  | cons x front ih =>
    have hx : ¬[a, b] <+: x :: (front ++ a :: b :: rest) := by
      intro hfront
      obtain ⟨rfl, -⟩ := List.cons_prefix_cons.mp hfront
      exact h List.mem_cons_self
    rw [List.cons_append, splitOnce, if_neg hx, ih fun ha => h (List.mem_cons_of_mem x ha)]
    rfl

theorem decode_append (b d : Nat) (digits : List Nat) :
    Radix.decode b (digits ++ [d]) = Radix.decode b digits * b + d := by
  simp [Radix.decode]

theorem decode_reverse (b : Nat) (digits : List Nat) :
    Radix.decode b digits.reverse = Nat.ofDigits b digits := by
  induction digits with
  | nil => rfl
  | cons d digits ih =>
    rw [List.reverse_cons, decode_append, ih, Nat.ofDigits_cons]
    simp [Nat.mul_comm, Nat.add_comm]

theorem decimalValue_hexDigit {d : Nat} (h : d < 10) : decimalValue (hexDigit d) = some d := by
  interval_cases d <;> decide

theorem mapM_decimalValue (h : ∀ d ∈ digits, d < 10) :
    (digits.map hexDigit).mapM decimalValue = some digits := by
  induction digits with
  | nil => rfl
  | cons d digits ih =>
    rw [List.map_cons, List.mapM_cons, decimalValue_hexDigit (h d List.mem_cons_self),
      ih fun x hx => h x (List.mem_cons_of_mem d hx)]
    rfl

theorem mem_decimal {n : Nat} (h : c ∈ decimal n) : c ∈ "0123456789".toList := by
  unfold decimal at h
  split at h
  · rw [List.mem_singleton.mp h]
    decide
  · obtain ⟨d, hd, rfl⟩ := List.mem_map.mp h
    have hlt : d < 10 := Nat.digits_lt_base (by decide) (List.mem_reverse.mp hd)
    interval_cases d <;> decide

theorem parseU16_decimal {n : Nat} (h : n < 2 ^ 16) : parseU16 (decimal n) = some n := by
  have hunsigned : unsigned (decimal n) = decimal n := by
    refine (unsigned_eq _).resolve_right fun heq => ?_
    have hmem : '+' ∈ decimal n := heq ▸ List.mem_cons_self
    exact absurd (mem_decimal hmem) (by decide)
  unfold parseU16
  rw [hunsigned]
  by_cases hn : n = 0
  · subst hn
    rfl
  · have hne : decimal n ≠ [] := by
      rw [decimal, if_neg hn]
      simpa using Nat.digits_ne_nil_iff_ne_zero.mpr hn
    have hdigits : (decimal n).mapM decimalValue = some (Nat.digits 10 n).reverse := by
      rw [decimal, if_neg hn]
      exact mapM_decimalValue fun d hd =>
        Nat.digits_lt_base (by decide) (List.mem_reverse.mp hd)
    simp only [if_neg hne, hdigits, decode_reverse, Nat.ofDigits_digits, if_pos h]

theorem parseU16_eq_some {s : Str} {n : Nat} (h : parseU16 s = some n) :
    n < 2 ^ 16 ∧ ∃ digits, (unsigned s).mapM decimalValue = some digits := by
  unfold parseU16 at h
  split at h
  · cases h
  · split at h
    · cases h
    · rename_i digits hdigits
      obtain ⟨hlt, heq⟩ := Option.ite_none_right_eq_some.mp h
      cases heq
      exact ⟨hlt, digits, hdigits⟩

theorem notMem_of_mapM {s : Str} (hc : decimalValue c = none)
    (h : s.mapM decimalValue = some digits) : c ∉ s := by
  induction s generalizing digits with
  | nil => exact List.not_mem_nil
  | cons x s ih =>
    rw [List.mapM_cons] at h
    obtain ⟨v, hv, h⟩ := Option.bind_eq_some_iff.mp h
    obtain ⟨rest, hrest, -⟩ := Option.bind_eq_some_iff.mp h
    intro hmem
    rcases List.mem_cons.mp hmem with rfl | hmem
    · rw [hc] at hv
      cases hv
    · exact ih hrest hmem

theorem colon_notMem_port {s : Str} {n : Nat} (h : parseU16 s = some n) : ':' ∉ s := by
  obtain ⟨-, digits, hdigits⟩ := parseU16_eq_some h
  have hnot := notMem_of_mapM (by decide : decimalValue ':' = none) hdigits
  rcases unsigned_eq s with heq | heq
  · rwa [heq] at hnot
  · rw [heq]
    exact fun hmem => (List.mem_cons.mp hmem).elim (by decide) hnot

inductive Entry where
  | hostPort (host port : Str)
  | v6Port (v6 port : Str)
  | hostOnly (host : Str)
  | bracketed (v6 : Str)
  | bare (v6 : Str)

/-- A host name or an IPv4 literal has no colon. -/
def IsHost (s : Str) : Prop := ':' ∉ s ∧ '[' ∉ s

/-- An IPv6 literal has colons. -/
def IsV6 (s : Str) : Prop := ':' ∈ s ∧ '[' ∉ s ∧ ']' ∉ s

namespace Entry

def brackets (v6 : Str) : Str := '[' :: v6 ++ [']']

def text : Entry → Str
  | hostPort host port => host ++ ':' :: port
  | v6Port v6 port => brackets v6 ++ ':' :: port
  | hostOnly host => host
  | bracketed v6 => brackets v6
  | bare v6 => v6

def ownPort : Entry → Option Nat
  | hostPort _ port | v6Port _ port => parseU16 port
  | _ => none

def hostText : Entry → Str
  | hostPort host _ | hostOnly host => host
  | v6Port v6 _ | bracketed v6 | bare v6 => brackets v6

/-- The host is one of its kind, and the port, if the entry has one, is a `u16`. -/
def WellFormed : Entry → Prop
  | hostPort host port => IsHost host ∧ parseU16 port ≠ none
  | v6Port v6 port => IsV6 v6 ∧ parseU16 port ≠ none
  | hostOnly host => IsHost host
  | bracketed v6 | bare v6 => IsV6 v6

/-- A bare IPv6 literal whose last group is taken for a port. -/
def Misread : Entry → Prop
  | bare v6 => ∃ front last, v6 = front ++ ':' :: last ∧ parseU16 last ≠ none
  | _ => False

end Entry

open Entry

section Addresses

variable {host v6 port : Str} {n : Nat}

theorem splitHostPort_plain (hhost : '[' ∉ host) (h : parseU16 port = some n) :
    splitHostPort (host ++ ':' :: port) = .ok (host, n) ∧
      looksLikeHostPort (host ++ ':' :: port) := by
  have hsplit := rsplitOnce_append host (colon_notMem_port h)
  have hfirst : ∀ rest, host ++ ':' :: port ≠ '[' :: rest := by
    intro rest heq
    cases host with
    | nil => cases heq
    | cons x host =>
      obtain ⟨rfl, -⟩ := List.cons.inj heq
      exact hhost List.mem_cons_self
  generalize host ++ ':' :: port = addr at hsplit hfirst
  constructor
  · unfold splitHostPort
    split
    · exact absurd rfl (hfirst _)
    · rw [hsplit]
      simp only [h]
  · unfold looksLikeHostPort
    split
    · exact absurd rfl (hfirst _)
    · rw [hsplit]
      simp only [h, Option.isSome_some]

theorem splitHostPort_brackets (hv6 : ']' ∉ v6) (h : parseU16 port = some n) :
    splitHostPort (brackets v6 ++ ':' :: port) = .ok (brackets v6, n) ∧
      looksLikeHostPort (brackets v6 ++ ':' :: port) := by
  have htext : brackets v6 ++ ':' :: port = '[' :: (v6 ++ ']' :: ':' :: port) := by
    simp [brackets]
  rw [htext]
  constructor
  · have hsplit : splitOnce "]:".toList (v6 ++ ']' :: ':' :: port) = some (v6, port) :=
      splitOnce_append port hv6
    simp only [splitHostPort, hsplit, h]
    rfl
  · refine decide_eq_true ?_
    exact ⟨v6, port, by simp⟩

theorem formatHostPort_plain (hhost : ':' ∉ host) (n : Nat) :
    formatHostPort host n = host ++ ':' :: decimal n := by
  rw [formatHostPort, if_neg fun h => hhost h.1]

theorem formatHostPort_brackets (v6 : Str) (n : Nat) :
    formatHostPort (brackets v6) n = brackets v6 ++ ':' :: decimal n := by
  rw [formatHostPort, if_neg fun h => h.2 rfl]

theorem formatHostPort_bare (hv6 : IsV6 v6) (n : Nat) :
    formatHostPort v6 n = brackets v6 ++ ':' :: decimal n := by
  have hfirst : v6.head? ≠ some '[' := fun h => hv6.2.1 (List.mem_of_mem_head? h)
  rw [formatHostPort, if_pos ⟨hv6.1, hfirst⟩]
  simp [brackets]

end Addresses

theorem splitHostPort_bind (h : bind.WellFormed) {port : Nat} (hport : bind.ownPort = some port) :
    splitHostPort bind.text = .ok (bind.hostText, port) := by
  cases bind with
  | hostPort host p => exact (splitHostPort_plain h.1.2 hport).1
  | v6Port v6 p => exact (splitHostPort_brackets h.1.2.2 hport).1
  | hostOnly _ | bracketed _ | bare _ => cases hport

theorem port_lt {port : Nat} (hport : bind.ownPort = some port) : port < 2 ^ 16 := by
  cases bind with
  | hostPort _ _ | v6Port _ _ => exact (parseU16_eq_some hport).1
  | hostOnly _ | bracketed _ | bare _ => cases hport

section Unported

variable {s : Str}

theorem looksLikeHostPort_host (h : IsHost s) : looksLikeHostPort s = false := by
  unfold looksLikeHostPort
  split
  · exact absurd List.mem_cons_self h.2
  · rw [rsplitOnce_eq_none.mpr h.1]

theorem looksLikeHostPort_bracketed (h : ']' ∉ s) : looksLikeHostPort (brackets s) = false := by
  refine decide_eq_false fun hinfix => ?_
  have hsub : List.Sublist [']', ':'] (s ++ [']']) := hinfix.sublist
  obtain ⟨front, rest, heq, hfront, hrest⟩ := List.sublist_append_iff.mp hsub
  cases front with
  | nil =>
    have hlen := hrest.length_le
    rw [← List.nil_append rest, ← heq] at hlen
    exact absurd hlen (by decide)
  | cons x front =>
    obtain ⟨rfl, -⟩ := List.cons.inj heq
    exact h (hfront.subset List.mem_cons_self)

theorem looksLikeHostPort_bare {front last : Str} (h : '[' ∉ s) (hs : s = front ++ ':' :: last)
    (hlast : ':' ∉ last) : looksLikeHostPort s = (parseU16 last).isSome := by
  unfold looksLikeHostPort
  split
  · exact absurd List.mem_cons_self h
  · rw [hs, rsplitOnce_append front hlast]

theorem resolveAdvertise_own (bind : Str) (h : looksLikeHostPort s) :
    resolveAdvertise s bind = .ok s := by
  rw [resolveAdvertise, if_pos h]

theorem resolveAdvertise_bind {bind host : Str} {port : Nat} (h : looksLikeHostPort s = false)
    (hbind : splitHostPort bind = .ok (host, port)) :
    resolveAdvertise s bind = .ok (formatHostPort s port) := by
  rw [resolveAdvertise, h, if_neg (by decide), hbind]

end Unported

/-- For every bound address and every entry of one of the five forms, the resolved address has the
entry's host, the entry's port or else that of the bound address, and is resolved to itself, unless
the entry is a bare IPv6 literal whose last group is a port. -/
theorem portals_well_formed (bind entry : Entry) (hbind : bind.WellFormed) {port : Nat}
    (hport : bind.ownPort = some port) (hentry : entry.WellFormed) :
    (∃ s, resolveAdvertise entry.text bind.text = .ok s ∧
      splitHostPort s = .ok (entry.hostText, entry.ownPort.getD port) ∧
      resolveAdvertise s bind.text = .ok s) ↔ ¬entry.Misread := by
  have hsplit := splitHostPort_bind hbind hport
  have hread := parseU16_decimal (port_lt hport)
  cases entry with
  | hostPort host p =>
    obtain ⟨n, hn⟩ := Option.ne_none_iff_exists'.mp hentry.2
    obtain ⟨haddr, hlooks⟩ := splitHostPort_plain hentry.1.2 hn
    refine iff_of_true ⟨_, resolveAdvertise_own _ hlooks, ?_, resolveAdvertise_own _ hlooks⟩ id
    rw [text, haddr, ownPort, hn]
    rfl
  | v6Port v6 p =>
    obtain ⟨n, hn⟩ := Option.ne_none_iff_exists'.mp hentry.2
    obtain ⟨haddr, hlooks⟩ := splitHostPort_brackets hentry.1.2.2 hn
    refine iff_of_true ⟨_, resolveAdvertise_own _ hlooks, ?_, resolveAdvertise_own _ hlooks⟩ id
    rw [text, haddr, ownPort, hn]
    rfl
  | hostOnly host =>
    obtain ⟨haddr, hlooks⟩ := splitHostPort_plain hentry.2 hread
    have hresolve := resolveAdvertise_bind (looksLikeHostPort_host hentry) hsplit
    rw [formatHostPort_plain hentry.1] at hresolve
    exact iff_of_true ⟨_, hresolve, haddr, resolveAdvertise_own _ hlooks⟩ id
  | bracketed v6 =>
    obtain ⟨haddr, hlooks⟩ := splitHostPort_brackets hentry.2.2 hread
    have hresolve := resolveAdvertise_bind (looksLikeHostPort_bracketed hentry.2.2) hsplit
    rw [formatHostPort_brackets] at hresolve
    exact iff_of_true ⟨_, hresolve, haddr, resolveAdvertise_own _ hlooks⟩ id
  | bare v6 =>
    cases hlast : rsplitOnce ':' v6 with
    | none => exact absurd hentry.1 (rsplitOnce_eq_none.mp hlast)
    | some parts =>
      obtain ⟨front, last⟩ := parts
      obtain ⟨hv6, hcolon⟩ := rsplitOnce_eq_some hlast
      have hlooks := looksLikeHostPort_bare hentry.2.1 hv6 hcolon
      cases hn : parseU16 last with
      | some n =>
        -- the last group is taken for the port, and what is before it for the host
        refine iff_of_false ?_ (not_not.mpr ⟨front, last, hv6, by simp [hn]⟩)
        rintro ⟨s, hresolve, haddr, -⟩
        have hself := resolveAdvertise_own bind.text (hlooks.trans (by simp [hn]))
        rw [show (bare v6).text = v6 from rfl, hself] at hresolve
        cases hresolve
        have hfront : '[' ∉ front := fun h => hentry.2.1 (by rw [hv6]; simp [h])
        rw [hv6, (splitHostPort_plain hfront hn).1] at haddr
        obtain ⟨hhost, -⟩ := Prod.mk.inj (Except.ok.inj haddr)
        refine hfront ?_
        rw [hhost]
        exact List.mem_cons_self
      | none =>
        obtain ⟨haddr, hlooks'⟩ := splitHostPort_brackets hentry.2.2 hread
        have hresolve := resolveAdvertise_bind (hlooks.trans (by simp [hn])) hsplit
        rw [formatHostPort_bare hentry] at hresolve
        refine iff_of_true ⟨_, hresolve, haddr, resolveAdvertise_own _ hlooks'⟩ ?_
        rintro ⟨front', last', hv6', hn'⟩
        obtain ⟨n, hn'⟩ := Option.ne_none_iff_exists'.mp hn'
        rw [hv6', rsplitOnce_append front' (colon_notMem_port hn')] at hlast
        cases hlast
        rw [hn] at hn'
        cases hn'

theorem portals_well_formed_host :
    ∃ s, resolveAdvertise "127.0.0.1".toList
        (hostPort "0.0.0.0".toList "3260".toList).text = .ok s ∧
      splitHostPort s = .ok ("127.0.0.1".toList, 3260) ∧
      resolveAdvertise s (hostPort "0.0.0.0".toList "3260".toList).text = .ok s :=
  (portals_well_formed (hostPort "0.0.0.0".toList "3260".toList) (hostOnly "127.0.0.1".toList)
    ⟨⟨by decide, by decide⟩, by decide +kernel⟩ (by decide +kernel : parseU16 _ = some 3260)
    ⟨by decide, by decide⟩).mpr id

/-- The IPv6 loopback address without brackets is taken for host `:` and port 1. -/
theorem bare_ipv6_misread :
    resolveAdvertise "::1".toList "0.0.0.0:3260".toList = .ok "::1".toList ∧
    splitHostPort "::1".toList = .ok (":".toList, 1) :=
  ⟨by decide +kernel, by decide +kernel⟩

end IscsiS3

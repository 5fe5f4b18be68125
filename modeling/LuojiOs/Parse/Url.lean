import LuojiOs.Files.Table
import LuojiOs.Support.Numerals
import Mathlib.Data.List.TakeWhile

/-!
# Network addresses

`parseUrl` with the fields of `struct Url` as the arrays that they are, and the memory that the
path stands in.  A user name and a password are copied the wrong way round, out of the address
into the path.
-/

namespace LuojiOs

namespace Netio

open Devfs Mtd Fat Filesys Numerals

def USERNAMESIZE : ℕ := 26

def PASSWORDSIZE : ℕ := 26

/-! ## Arrays -/

/-- An array of `n` characters. -/
structure Field (n : ℕ) where
  bytes : List (BitVec 8)
  length_eq : bytes.length = n
  deriving DecidableEq

namespace Field

variable {n : ℕ}

/-- The bytes `l` are stored at the beginning. -/
def store (f : Field n) (l : List (BitVec 8)) (h : l.length ≤ n) : Field n :=
  ⟨l ++ f.bytes.drop l.length, by
    rw [List.length_append, List.length_drop, f.length_eq, Nat.add_sub_cancel' h]⟩

/-- A 0 is stored at the place `i`. -/
def terminate (f : Field n) (i : ℕ) (_ : i < n) : Field n :=
  ⟨f.bytes.set i 0, by rw [List.length_set, f.length_eq]⟩

/-- `strncpy` of the characters in front of a delimiter, and a 0 behind them. -/
def copy (f : Field n) (s : CString) (h : s.length < n) : Field n :=
  f.store (s ++ [0]) (by
    rw [List.length_append]
    exact h)

/-- `strncpy` with the size of the array. -/
def strncpy (f : Field n) (s : CString) : Field n :=
  f.store ((s ++ List.replicate n 0).take n) (List.length_take_le _ _)

/-- There is a NUL in the array. -/
def Terminated (f : Field n) : Prop := 0 ∈ f.bytes

/-- The array holds the string `s`, with the NUL behind it. -/
def Holds (f : Field n) (s : CString) : Prop := s ++ [0] <+: f.bytes

instance (f : Field n) : Decidable f.Terminated := inferInstanceAs (Decidable (0 ∈ f.bytes))

instance (f : Field n) (s : CString) : Decidable (f.Holds s) :=
  inferInstanceAs (Decidable (s ++ [0] <+: f.bytes))

end Field

structure Url where
  protocol : Field PROTOCOLSIZE
  username : Field USERNAMESIZE
  password : Field PASSWORDSIZE
  hostname : Field HOSTNAMESIZE
  filename : Field FILENAMESIZE
  port : ℤ
  deriving DecidableEq

/-! ## `parseUrl` -/

/-- `memcpy` of the bytes `l` to the place `i` of `m`, if they fit. -/
def memcpy (m : List (BitVec 8)) (i : ℕ) (l : List (BitVec 8)) : Option (List (BitVec 8)) :=
  if i + l.length ≤ m.length then some (m.take i ++ l ++ m.drop (i + l.length)) else none

/-- The string at the place `i` of `m`, if there is a NUL behind it. -/
def stringAt (m : List (BitVec 8)) (i : ℕ) : Option CString :=
  if 0 ∈ m.drop i then some ((m.drop i).takeWhile (· ≠ 0)) else none

/-- The result, the address, the memory of the path, and whether anything has been written to
that memory. -/
structure Outcome where
  ret : ℤ
  url : Url
  path : List (BitVec 8)
  outside : Bool
  deriving DecidableEq

/-- From the hostname on. -/
def parseHost (dname : CString) (url : Url) : ℤ × Url :=
  let url := { url with port := 0 }
  match cutAt Filesys.colon dname with
  | (hostname, some dname) =>
    if h : HOSTNAMESIZE < hostname.length + 1 then (-1, url)
    else
      let url := { url with hostname := url.hostname.copy hostname (Nat.not_lt.mp h) }
      match cutAt slash dname with
      | (_, none) => (-1, url)
      | (_, some filename) =>
        (0, { url with
          port := int16 (atoi dname)
          filename := url.filename.strncpy filename })
  | (_, none) =>
    match cutAt slash dname with
    | (hostname, some filename) =>
      if h : HOSTNAMESIZE < hostname.length + 1 then (-1, url)
      else
        (0, { url with
          hostname := url.hostname.copy hostname (Nat.not_lt.mp h)
          filename := url.filename.strncpy filename })
    | (_, none) => (0, { url with filename := url.filename.strncpy dname })

/-- From the user name on, in the memory `m`; the `@` is at the place `buf`. -/
def parseName (buf passwdlen : ℕ) (m : List (BitVec 8)) (url : Url) : Option Outcome :=
  -- the length for `memcpy` is negative
  if buf < passwdlen then none
  else
    let unamelen := buf - passwdlen
    if h : USERNAMESIZE < unamelen + 1 then some ⟨-1, url, m, 0 < passwdlen⟩
    else
      (memcpy m 0 (url.username.bytes.take unamelen)).bind fun m =>
        let url := { url with username := url.username.terminate unamelen (Nat.not_lt.mp h) }
        let dname := (if passwdlen = 0 then 0 else passwdlen + 1) + (unamelen + 1)
        (stringAt m dname).map fun dname =>
          let (ret, url) := parseHost dname url
          ⟨ret, url, m, 0 < passwdlen ∨ 0 < unamelen⟩

/-- From behind `://` on. -/
def parseUser (dname : CString) (url : Url) : Option Outcome :=
  let m := dname ++ [0]
  match cutAt atSign dname with
  | (_, none) =>
    let url := { url with username := url.username.terminate 0 (by decide) }
    let (ret, url) := parseHost dname url
    some ⟨ret, url, m, false⟩
  | (front, some _) =>
    match cutAt Filesys.colon dname with
    | (name, some _) =>
      let passwdlen := name.length
      if h : PASSWORDSIZE < passwdlen + 1 then some ⟨-1, url, m, false⟩
      else
        (memcpy m passwdlen (url.password.bytes.take passwdlen)).bind fun m =>
          parseName front.length passwdlen m
            { url with password := url.password.terminate passwdlen (Nat.not_lt.mp h) }
    | (_, none) =>
      parseName front.length 0 m
        { url with password := url.password.terminate 0 (by decide) }

/-- There is no result where memory behind the path is read or written. -/
def parseUrl (path : CString) (url : Url) : Option Outcome :=
  match cutAt Filesys.colon path with
  | (_, none) => some ⟨-1, url, path ++ [0], false⟩
  | (protocol, some rest) =>
    if h : PROTOCOLSIZE < protocol.length + 1 then some ⟨-1, url, path ++ [0], false⟩
    else
      let url := { url with protocol := url.protocol.copy protocol (Nat.not_lt.mp h) }
      if ¬(cstr "//").isPrefixOf rest then some ⟨-1, url, path ++ [0], false⟩
      else
        (parseUser (rest.drop 2) url).map fun out =>
          { out with path := protocol ++ cstr "://" ++ out.path }

/-! ## Delimiters -/

variable {c d : BitVec 8} {s t : CString} {m m' : List (BitVec 8)} {url : Url} {n i : ℕ}

theorem cutAt_of_not_mem (h : c ∉ s) : cutAt c s = (s, none) := by
  have hall : s.takeWhile (· ≠ c) = s :=
    List.takeWhile_eq_self_iff.mpr fun d hd => decide_eq_true fun heq => h (heq ▸ hd)
  unfold cutAt
  rw [hall, if_neg h]

theorem cutAt_append (h : c ∉ s) : cutAt c (s ++ c :: t) = (s, some t) := by
  have hne : ∀ d ∈ s, decide (d ≠ c) = true := fun d hd => decide_eq_true fun heq => h (heq ▸ hd)
  unfold cutAt
  rw [if_pos (List.mem_append_right s List.mem_cons_self), List.takeWhile_append_of_pos hne,
    List.dropWhile_append_of_pos hne, List.takeWhile_cons_of_neg (by simp),
    List.dropWhile_cons_of_neg (by simp), List.append_nil]
  rfl

theorem exists_first (h : c ∈ s) : ∃ t u, c ∉ t ∧ s = t ++ c :: u := by
  induction s with
  | nil => cases h
  | cons d s ih =>
      by_cases hd : c = d
      · exact ⟨[], s, List.not_mem_nil, by rw [hd]; rfl⟩
      · obtain ⟨t, u, ht, rfl⟩ := ih ((List.mem_cons.mp h).resolve_left hd)
        exact ⟨d :: t, u, by simp [hd, ht], rfl⟩

theorem not_mem_behind {u : CString} (h : c ∉ t ++ d :: u) : c ∉ u :=
  fun hu => h (List.mem_append_right t (List.mem_cons_of_mem d hu))

/-- Two characters are not at the same place. -/
theorem first_length_ne {t' u u' : CString} (hcd : c ≠ d) (h : t ++ c :: u = t' ++ d :: u') :
    t.length ≠ t'.length := by
  intro heq
  have htail := (List.append_inj h heq).2
  exact hcd (List.cons.inj htail).1

theorem memcpy_front {l : List (BitVec 8)} (h : l.length = s.length) :
    memcpy (s ++ t) 0 l = some (l ++ t) := by
  unfold memcpy
  rw [Nat.zero_add, if_pos (by simp [h]), h, List.drop_left]
  rfl

theorem stringAt_append (hs : (0 : BitVec 8) ∉ s) :
    stringAt (m ++ (s ++ [0])) m.length = some s := by
  have hne : ∀ d ∈ s, decide (d ≠ 0) = true := fun d hd => decide_eq_true fun heq => hs (heq ▸ hd)
  unfold stringAt
  rw [List.drop_left, if_pos (by simp), List.takeWhile_append_of_pos hne]
  simp

/-! ## Arrays -/

namespace Field

variable {f : Field n}

theorem terminated_copy {h : s.length < n} : (f.copy s h).Terminated := by
  have hmem : (0 : BitVec 8) ∈ s ++ [0] := by simp
  exact List.mem_append_left _ hmem

theorem terminated_terminate {h : i < n} : (f.terminate i h).Terminated :=
  List.mem_set (f.length_eq.symm ▸ h) 0

/-- `strncpy` puts a NUL behind the string if there is room for it. -/
theorem terminated_strncpy (hs : (0 : BitVec 8) ∉ s) :
    (f.strncpy s).Terminated ↔ s.length < n := by
  have hlen : ((s ++ List.replicate n 0).take n).length = n := by
    rw [List.length_take, List.length_append, List.length_replicate]
    omega
  have hbytes : (f.strncpy s).bytes = (s ++ List.replicate n 0).take n := by
    unfold strncpy store
    dsimp only
    rw [hlen, List.drop_of_length_le (Nat.le_of_eq f.length_eq), List.append_nil]
  unfold Terminated
  rw [hbytes, List.take_append, List.mem_append, List.take_replicate, List.mem_replicate]
  constructor
  · rintro (hmem | ⟨hne, -⟩)
    · exact absurd (List.mem_of_mem_take hmem) hs
    · omega
  · intro hlt
    exact Or.inr ⟨by omega, rfl⟩

end Field

/-! ## What is written -/

/-- Each of the five arrays is terminated. -/
structure Url.Terminated (url : Url) : Prop where
  protocol : url.protocol.Terminated
  username : url.username.Terminated
  password : url.password.Terminated
  hostname : url.hostname.Terminated
  filename : url.filename.Terminated

/-- The call writes to the address only, and leaves the arrays terminated. -/
def Confined (out : Option Outcome) : Prop :=
  ∃ o, out = some o ∧ o.outside = false ∧ o.url.Terminated

/-- Behind the user name: an array that is left out stays as it was, and `strncpy` does not
terminate a name of 80 characters. -/
def SafeHost (dname : CString) (url : Url) : Prop :=
  match cutAt Filesys.colon dname with
  | (hostname, some dname) =>
    if HOSTNAMESIZE ≤ hostname.length then url.hostname.Terminated ∧ url.filename.Terminated
    else
      match cutAt slash dname with
      | (_, none) => url.filename.Terminated
      | (_, some filename) => filename.length < FILENAMESIZE
  | (_, none) =>
    match cutAt slash dname with
    | (hostname, some filename) =>
      if HOSTNAMESIZE ≤ hostname.length then url.hostname.Terminated ∧ url.filename.Terminated
      else filename.length < FILENAMESIZE
    | (_, none) => url.hostname.Terminated ∧ dname.length < FILENAMESIZE

/-- Behind `://`: a user name is harmless only where it is empty, or too long. -/
def SafeUser (dname : CString) (url : Url) : Prop :=
  match cutAt atSign dname with
  | (_, none) => url.password.Terminated ∧ SafeHost dname url
  | (front, some rest) =>
    match cutAt Filesys.colon dname with
    | (name, some _) =>
      if PASSWORDSIZE ≤ name.length then
        url.username.Terminated ∧ url.password.Terminated ∧ url.hostname.Terminated ∧
          url.filename.Terminated
      else
        name = [] ∧ USERNAMESIZE ≤ front.length ∧ url.username.Terminated ∧
          url.hostname.Terminated ∧ url.filename.Terminated
    | (_, none) =>
      if USERNAMESIZE ≤ front.length then
        url.username.Terminated ∧ url.hostname.Terminated ∧ url.filename.Terminated
      else front = [] ∧ SafeHost rest url

def Safe (path : CString) (url : Url) : Prop :=
  match cutAt Filesys.colon path with
  | (_, none) => url.Terminated
  | (protocol, some rest) =>
    if PROTOCOLSIZE ≤ protocol.length then url.Terminated
    else if ¬(cstr "//").isPrefixOf rest then
      url.username.Terminated ∧ url.password.Terminated ∧ url.hostname.Terminated ∧
        url.filename.Terminated
    else SafeUser (rest.drop 2) url

theorem Url.terminated_iff : url.Terminated ↔ url.protocol.Terminated ∧ url.username.Terminated ∧
    url.password.Terminated ∧ url.hostname.Terminated ∧ url.filename.Terminated :=
  ⟨fun h => ⟨h.protocol, h.username, h.password, h.hostname, h.filename⟩,
    fun ⟨hp, hu, hw, hh, hf⟩ => ⟨hp, hu, hw, hh, hf⟩⟩

theorem confined_some {o : Outcome} :
    Confined (some o) ↔ o.outside = false ∧ o.url.Terminated := by
  unfold Confined
  constructor
  · rintro ⟨_, ⟨⟩, h⟩
    exact h
  · intro h
    exact ⟨o, rfl, h⟩

theorem confined_map {out : Option Outcome} {f : Outcome → Outcome}
    (hf : ∀ o, (f o).outside = o.outside ∧ (f o).url = o.url) :
    Confined (out.map f) ↔ Confined out := by
  cases out with
  | none => exact iff_of_false (fun h => nomatch h) (fun h => nomatch h)
  | some o => rw [Option.map_some, confined_some, confined_some, (hf o).1, (hf o).2]

theorem parseHost_terminated (hs : (0 : BitVec 8) ∉ s) :
    (parseHost s url).2.Terminated ↔ (url.protocol.Terminated ∧ url.username.Terminated ∧
      url.password.Terminated) ∧ SafeHost s url := by
  rw [Url.terminated_iff, and_assoc, and_assoc]
  unfold parseHost SafeHost
  by_cases hcolon : Filesys.colon ∈ s
  · obtain ⟨t, u, ht, rfl⟩ := exists_first hcolon
    rw [cutAt_append ht]
    dsimp only
    by_cases hlen : HOSTNAMESIZE ≤ t.length
    · rw [dif_pos (Nat.lt_succ_of_le hlen), if_pos hlen]
    · rw [dif_neg (fun h => hlen (Nat.le_of_lt_succ h)), if_neg hlen]
      by_cases hslash : slash ∈ u
      · obtain ⟨v, w, hv, rfl⟩ := exists_first hslash
        rw [cutAt_append hv]
        simp only [Field.terminated_copy, true_and]
        rw [Field.terminated_strncpy (not_mem_behind (not_mem_behind hs))]
      · rw [cutAt_of_not_mem hslash]
        simp only [Field.terminated_copy, true_and]
  · rw [cutAt_of_not_mem hcolon]
    dsimp only
    by_cases hslash : slash ∈ s
    · obtain ⟨v, w, hv, rfl⟩ := exists_first hslash
      rw [cutAt_append hv]
      dsimp only
      by_cases hlen : HOSTNAMESIZE ≤ v.length
      · rw [dif_pos (Nat.lt_succ_of_le hlen), if_pos hlen]
      · rw [dif_neg (fun h => hlen (Nat.le_of_lt_succ h)), if_neg hlen]
        simp only [Field.terminated_copy, true_and]
        rw [Field.terminated_strncpy (not_mem_behind hs)]
    · rw [cutAt_of_not_mem hslash]
      dsimp only
      rw [Field.terminated_strncpy hs]

/-- Where something is copied, it is copied to the path. -/
theorem not_confined_parseName {buf passwdlen : ℕ}
    (h : 0 < passwdlen ∨ 0 < buf ∧ buf < USERNAMESIZE) :
    ¬Confined (parseName buf passwdlen m url) := by
  rintro ⟨o, ho, hout, -⟩
  unfold parseName at ho
  split at ho
  · cases ho
  · dsimp only at ho
    split at ho
    · cases ho
      have hnone := of_decide_eq_false hout
      omega
    · obtain ⟨m', -, ho⟩ := Option.bind_eq_some_iff.mp ho
      obtain ⟨dname, -, rfl⟩ := Option.map_eq_some_iff.mp ho
      have hnone := of_decide_eq_false hout
      omega

/-- Without a password the user name is copied over the one in the path. -/
theorem parseName_eq (hs : (0 : BitVec 8) ∉ s ++ atSign :: t) (hlen : s.length < USERNAMESIZE) :
    parseName s.length 0 (s ++ atSign :: t ++ [0]) url =
      let url' := { url with username := url.username.terminate s.length hlen }
      some ⟨(parseHost t url').1, (parseHost t url').2,
        url.username.bytes.take s.length ++ (atSign :: t ++ [0]), 0 < s.length⟩ := by
  have htake : (url.username.bytes.take s.length).length = s.length := by
    rw [List.length_take, url.username.length_eq]
    omega
  have hstring : stringAt (url.username.bytes.take s.length ++ (atSign :: t ++ [0]))
      (s.length + 1) = some t := by
    have hfront := @stringAt_append t (url.username.bytes.take s.length ++ [atSign])
      (not_mem_behind hs)
    rw [List.length_append, htake, List.append_assoc] at hfront
    exact hfront
  unfold parseName
  rw [if_neg (Nat.not_lt_zero _)]
  dsimp only
  rw [dif_neg (show ¬USERNAMESIZE < s.length - 0 + 1 by omega), List.append_assoc]
  dsimp only [Nat.sub_zero]
  rw [memcpy_front htake, Option.bind_some, if_pos rfl, Nat.zero_add, hstring, Option.map_some]
  simp only [Nat.lt_irrefl, false_or]

theorem confined_parseName (hs : (0 : BitVec 8) ∉ s ++ atSign :: t) :
    Confined (parseName s.length 0 (s ++ atSign :: t ++ [0]) url) ↔
      (url.protocol.Terminated ∧ url.password.Terminated) ∧
        if USERNAMESIZE ≤ s.length then
          url.username.Terminated ∧ url.hostname.Terminated ∧ url.filename.Terminated
        else s = [] ∧ SafeHost t url := by
  by_cases hlen : USERNAMESIZE ≤ s.length
  · rw [if_pos hlen]
    unfold parseName
    rw [if_neg (Nat.not_lt_zero _)]
    dsimp only
    rw [dif_pos (show USERNAMESIZE < s.length - 0 + 1 by omega), confined_some, Url.terminated_iff]
    simp only [Nat.lt_irrefl, decide_false, true_and]
    tauto
  · have hlt : s.length < USERNAMESIZE := Nat.lt_of_not_le hlen
    have hnil : ¬0 < s.length ↔ s = [] := by
      rw [Nat.not_lt, Nat.le_zero, List.length_eq_zero_iff]
    rw [if_neg hlen, parseName_eq hs hlt, confined_some, decide_eq_false_iff_not, hnil,
      parseHost_terminated (not_mem_behind hs)]
    simp only [Field.terminated_terminate, true_and]
    exact and_left_comm

theorem confined_parseUser (hs : (0 : BitVec 8) ∉ s) (hprotocol : url.protocol.Terminated) :
    Confined (parseUser s url) ↔ SafeUser s url := by
  unfold parseUser SafeUser
  by_cases hat : atSign ∈ s
  · obtain ⟨front, rest, hfront, rfl⟩ := exists_first hat
    rw [cutAt_append hfront]
    by_cases hcolon : Filesys.colon ∈ front ++ atSign :: rest
    · obtain ⟨name, u, hname, heq⟩ := exists_first hcolon
      have hcut : cutAt Filesys.colon (front ++ atSign :: rest) = (name, some u) := by
        rw [heq, cutAt_append hname]
      rw [hcut]
      dsimp only
      by_cases hlen : PASSWORDSIZE ≤ name.length
      · rw [dif_pos (Nat.lt_succ_of_le hlen), if_pos hlen, confined_some, Url.terminated_iff]
        simp only [hprotocol, true_and]
      · rw [dif_neg (fun h => hlen (Nat.le_of_lt_succ h)), if_neg hlen]
        cases name with
        | nil =>
            have hmemcpy : memcpy (front ++ atSign :: rest ++ [0]) 0
                (url.password.bytes.take 0) = some (front ++ atSign :: rest ++ [0]) :=
              @memcpy_front [] (front ++ atSign :: rest ++ [0]) _ rfl
            have hne : front ≠ [] := by
              rintro rfl
              exact absurd (List.cons.inj heq).1 (by decide)
            dsimp only [List.length_nil]
            rw [hmemcpy, Option.bind_some, confined_parseName hs]
            simp only [hprotocol, Field.terminated_terminate, true_and]
            split
            · next hfits => simp only [hfits, true_and]
            · next hfits => simp only [hfits, hne, false_and]
        | cons c name =>
            refine iff_of_false ?_ ?_
            · rintro ⟨o, ho, hconfined⟩
              obtain ⟨m', -, ho⟩ := Option.bind_eq_some_iff.mp ho
              exact not_confined_parseName (Or.inl (Nat.succ_pos _)) ⟨o, ho, hconfined⟩
            · rintro ⟨⟨⟩, -⟩
    · rw [cutAt_of_not_mem hcolon]
      dsimp only
      rw [confined_parseName hs]
      simp only [hprotocol, Field.terminated_terminate, true_and]
      exact Iff.rfl
  · rw [cutAt_of_not_mem hat]
    dsimp only
    rw [confined_some, parseHost_terminated hs]
    simp only [hprotocol, Field.terminated_terminate, true_and]
    exact Iff.rfl

/-- For every string: what is written stays within the address, and its arrays are terminated, if
and only if the path is safe. -/
theorem confined_parseUrl {path : CString} (hpath : (0 : BitVec 8) ∉ path) :
    Confined (parseUrl path url) ↔ Safe path url := by
  unfold parseUrl Safe
  by_cases hcolon : Filesys.colon ∈ path
  · obtain ⟨protocol, rest, hprotocol, rfl⟩ := exists_first hcolon
    rw [cutAt_append hprotocol]
    dsimp only
    by_cases hlen : PROTOCOLSIZE ≤ protocol.length
    · rw [dif_pos (Nat.lt_succ_of_le hlen), if_pos hlen, confined_some]
      simp only [true_and]
    · rw [dif_neg (fun h => hlen (Nat.le_of_lt_succ h)), if_neg hlen]
      by_cases hslashes : (cstr "//").isPrefixOf rest
      · have hrest : (0 : BitVec 8) ∉ rest.drop 2 :=
          fun h => not_mem_behind hpath (List.mem_of_mem_drop h)
        rw [if_neg (not_not.mpr hslashes), if_neg (not_not.mpr hslashes),
          confined_map (by exact fun o => ⟨rfl, rfl⟩)]
        exact confined_parseUser hrest (Field.terminated_copy (h := Nat.lt_of_not_le hlen))
      · rw [if_pos hslashes, if_pos hslashes, confined_some, Url.terminated_iff]
        simp only [Field.terminated_copy, true_and]
  · rw [cutAt_of_not_mem hcolon]
    dsimp only
    rw [confined_some]
    simp only [true_and]

end Netio

end LuojiOs

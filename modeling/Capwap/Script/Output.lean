/-
# The two files, and what they offer

`interface.js` writes `cwJsonApi.c` and `cwJsonApi.h` in one go: a start, `buildArray`, what
`parseLine` writes for each line of `head.h`, and for each name of `topInterface` a function
`build..Json` that adds a builder's value to an object under a key.

The two files agree (`files_agree`).  The source is its start, a builder for each struct that a line
opens, and a function for each name; and the header declares these, in the same order and by the
same text, and no others: only `buildArray` is not declared.  A builder's text runs from its head to
the next one.  So what the lines say between two structs stands behind the first of them, and what
they say before any struct stands before the builders; where a struct is opened first, nothing does.

Other programs build messages by calling the functions of the names, one call after the other, with
their own data in between.  For a file of structs that links with the names, the object after any
such calls shows under each key what the data of the last call with that key showed at the time, and
what was there before under the others (`clients_iff`).
-/
import Capwap.Script.Program

namespace Capwap.Script

/-! ## 1. What is written

The program has two files open and writes to both as it goes.  What `parseLine` writes was
described before; here is what comes around it: the starts of both files, `buildArray`, the
functions for the names, and the end of the header. -/

/-- `cwJsonApi.c` and `cwJsonApi.h`. -/
structure Files where
  source : Text
  header : Text

/-- The names for which there is a function `build..Json`, in the order of the source. -/
def topInterface : List Text :=
  ["vsp_dot11_mgmt_vap", "cw_mac_entry", "vsp_dot11_ap_list", "vsp_dot11_ap_suppress_list",
    "vsp_dot11_sta_list", "vsp_vap_downup", "cw_sta_entry_add", "cw_sta_entry_del",
    "vsp_wds_sta", "cw_wlan_entry", "vsp_vap_psk_passwd", "vsp_vap_radius_config", "vsp_vap_wds",
    "vsp_vap_whitelist", "vsp_vap_ip_mask", "vsp_wtp_split_tun", "vsp_vap_mcast_rate",
    "vsp_vap_sta_max_ap", "vsp_vap_rates", "vsp_vap_bc_suppression", "vsp_vap_flags",
    "vsp_vap_natip_mask", "vsp_me_disable_thresh", "vsp_prob_resp_suppress", "vsp_vap_vlan_tag",
    "vsp_ip_frag", "vsp_dot11_ebp", "vsp_dot11_aero_enable", "vsp_dot11_aero_debug",
    "vsp_dot11_fortipresence_params", "vsp_mesh_eth_type", "vsp_fiap_eth_type",
    "vsp_sta_locate_reset", "vsp_max_retransmit", "vsp_lldp_enable", "vsp_dot11_aero_tag",
    "vsp_dot11_aero_mu", "vsp_dot11_fortipresence_enable", "vsp_vap_bitmap",
    "base_radio_admin_state", "dot11_md_cap", "dot11_wtp_radio_info", "base_vsp_country_code",
    "dot11_wtp_radio_cfg", "vsp_dot11_ps_opt", "vsp_dot11_tx_opt", "vsp_dot11_protmode",
    "vsp_dot11_amsdu", "vsp_dot11_coext", "vsp_dot11_pure", "vsp_dot11_ht_cap", "dot11_antenna",
    "dot11_tx_pwr", "dot11_dsss_ctl", "dot11_ofdm_ctl", "dot11_mac_oper", "vsp_darrp_cfg",
    "base_vsp_ap_scan", "base_vsp_ap_scan_idle", "base_vsp_ap_scan_passive",
    "base_vsp_ap_scan_sniffer", "base_vsp_sta_scan", "vsp_fho_enable", "vsp_apho_enable",
    "vsp_sta_locate_cfg", "vsp_txpwr_percentage", "vsp_spectrum_analysis", "vsp_wids_enable",
    "vsp_wids_params_long_dur", "vsp_wids_params_auth_time", "vsp_wids_params_auth_thresh",
    "vsp_wids_params_assoc_time", "vsp_wids_params_assoc_thresh",
    "vsp_wids_params_deauth_thresh", "vsp_radio_sta_max", "vsp_max_distance",
    "vsp_vap_web_authserver", "base_ac_desc", "vsp_wtp_allow", "vsp_wbh_sta", "base_cw_timers",
    "base_decrypt_err_rpt_period", "vsp_sta_stats_interval", "vsp_timers_interval",
    "vsp_sta_cap_interval", "vsp_wtp_led_dark", "vsp_wtp_sta_max", "base_vsp_telnet_enable",
    "base_vsp_http_enable", "base_vsp_https_enable", "base_vsp_ssh_enable",
    "vsp_mesh_eth_bridge"].map txt

/-- `struct type *type` -/
def parameterText (type : Text) : Text := txt "struct " ++ type ++ txt " *" ++ type

section
variable (camelize : Text → Text)

/-- The head of a builder, without what ends it. -/
def builderHead (type : Text) : Text :=
  txt "struct json_object* " ++ builderName camelize type ++ txt "(" ++ parameterText type ++
    txt ")"

def wrapperName (type : Text) : Text := builderName camelize type ++ txt "Json"

/-- The head of the function for one of the names. -/
def wrapperHead (type : Text) : Text :=
  txt "void " ++ wrapperName camelize type ++
    txt "(struct json_object *params, const char *key, " ++ parameterText type ++ txt ")"

def Files.toSource (f : Files) (code : Text) : Files := { f with source := f.source ++ code }

def Files.toHeader (f : Files) (code : Text) : Files := { f with header := f.header ++ code }

/-- What one of the names adds to the files. -/
def addInterface (f : Files) (intf : Text) : Files :=
  let f := f.toSource (txt "\r\n" ++ wrapperHead camelize intf ++ txt " \x7b\r\n")
  let f := f.toSource (txt "    json_object_object_add(params, key, " ++
    builderName camelize intf ++ txt "(" ++ intf ++ txt "));\r\n\x7d\r\n")
  f.toHeader (wrapperHead camelize intf ++ txt ";\r\n")

def addTopInterface (top : List Text) (f : Files) : Files :=
  top.foldl (addInterface camelize) (f.toHeader (txt "\r\n"))

/-- The function `buildArray`. -/
def toolText : Text :=
  txt "\r\nstruct json_object* buildArray(uint8_t *macAddr, uint8_t macLen) \x7b\r\n" ++
    txt "    int i = 0;\r\n" ++
    txt "    struct json_object *array = json_object_new_array();\r\n" ++
    txt "    for(i = 0; i < macLen; ++i) \x7b\r\n" ++
    txt "        json_object_array_add(array, json_object_new_int(macAddr[i]));\r\n" ++
    txt "    \x7d\r\n" ++ txt "    return array;\r\n" ++ txt "\x7d\r\n"

def addToolInterface (f : Files) : Files := f.toSource toolText

/-- Both files are new, and the header opens its guard. -/
def startFiles : Files :=
  let f := (⟨txt "\r\n", txt "\r\n"⟩ : Files).toSource (txt "#include \"cwJsonApi.h\"\r\n")
  let f := addToolInterface f
  f.toHeader (txt "#ifndef _CW_JSON_API_H\r\n" ++ txt "#define _CW_JSON_API_H\r\n\r\n" ++
    txt "#include \"cw.h\"\r\n" ++ txt "#include \"cwWTP.h\"\r\n" ++
    txt "#include \"json.h\"\r\n\r\n")

def headerEnd : Text := txt "\r\n#endif /* _CW_JSON_API_H */\r\n"

/-- The text of statements, each with its indent on a line. -/
def linesText (lines : List (Text × Stmt)) : Text :=
  lines.flatMap fun line => line.1 ++ (line.2.render ++ txt "\r\n")

/-- What the lines have written to the source... -/
def Gen.sourceText (g : Gen) : Text := linesText g.source

/-- ...and to the header. -/
def Gen.headerText (g : Gen) : Text := g.header.flatten

/-- The whole program, with the names `top`: what is in `cwJsonApi.c` and in `cwJsonApi.h` at its
end.  It throws when `head.h` has no line. -/
def writeFiles (top : List Text) (data : Text) : Option Files := do
  let g ← generate camelize data
  let f := (startFiles.toSource g.sourceText).toHeader g.headerText
  some ((addTopInterface camelize top f).toHeader headerEnd)

/-! ## 2. The header declares what the source defines

The lines of `head.h` are followed one by one: a typedef begins a function and declares it, and
whatever else is found adds statements to the function that is being written. -/

/-- A builder as it stands in the source: its struct, and what follows its head up to the next one,
statement by statement. -/
structure Defined where
  type : Text
  body : List (Text × Stmt)

/-- No function begins in these lines. -/
def Headless (lines : List (Text × Stmt)) : Prop := ∀ line ∈ lines, line.2.Inner

@[simp] theorem headless_nil : Headless [] := fun _ hline => absurd hline List.not_mem_nil

@[simp] theorem headless_cons {line : Text × Stmt} {lines : List (Text × Stmt)} :
    Headless (line :: lines) ↔ line.2.Inner ∧ Headless lines := List.forall_mem_cons

def Defined.text (d : Defined) : Text :=
  txt "\r\n" ++ builderHead camelize d.type ++ txt " \x7b\r\n" ++ linesText d.body

/-- The text of the function for a name. -/
def wrapperText (type : Text) : Text :=
  txt "\r\n" ++ wrapperHead camelize type ++ txt " \x7b\r\n" ++
    (txt "    json_object_object_add(params, key, " ++ builderName camelize type ++ txt "(" ++
      type ++ txt "));\r\n\x7d\r\n")

def declareText (head : Text) : Text := head ++ txt ";\r\n"

/-- The struct that is opened. -/
def Found.opened : Found → Option Text
  | .typedef name => some name
  | _ => none

/-- The structs that the lines of a text open, in their order. -/
def openedIn (data : Text) : List Text := ((splitLines data).flatMap found).filterMap Found.opened

/-- The first thing that is found in a file opens a struct. -/
def StartsStruct (data : Text) : Prop :=
  ∃ name rest, (splitLines data).flatMap found = .typedef name :: rest

theorem Reads.startsStruct {data : Text} {defs : List StructDef} (h : Reads data defs)
    (hne : defs ≠ []) : StartsStruct data := by
  obtain ⟨d, ds, rfl⟩ := List.exists_cons_of_ne_nil hne
  unfold Reads at h
  rw [List.flatMap_cons] at h
  exact ⟨d.name, _, h⟩

/-- What has been written: some lines, then the builders of the structs opened so far, which are
the ones declared.  A builder is its head and what follows it. -/
def Gen.Laid (g : Gen) (before : List (Text × Stmt)) (types : List Text) : Prop :=
  Headless before ∧ ∃ defined : List Defined,
    defined.map Defined.type = types ∧ (∀ d ∈ defined, Headless d.body) ∧
    g.sourceText = linesText before ++ defined.flatMap (Defined.text camelize) ∧
    g.headerText = types.flatMap fun type => declareText (builderHead camelize type)

/-- All but a typedef add statements to the source, and nothing to the header. -/
theorem Gen.on_writes (g : Gen) (f : Found) (hf : f.opened = none) :
    ∃ more, (g.on camelize f).source = g.source ++ more ∧ Headless more ∧
      (g.on camelize f).header = g.header := by
  cases f with
  | typedef name => cases hf
  | finish =>
    simp only [Gen.on, Gen.finish, Gen.line, Gen.toSource]
    split <;> simp [Stmt.Inner]
  | field f =>
    cases f with
    | macAddr type | macAddrMax type | keyMax type => exact ⟨_, rfl, by simp [Stmt.Inner], rfl⟩
    | macAddrEth type =>
      simp only [Gen.on, Gen.field, Gen.macAddrEth]
      split <;> simp [Stmt.Inner]
    | array type value len =>
      simp only [Gen.on, Gen.field, Gen.array]
      split_ifs <;> simp [Stmt.Inner]
    | scalar key value =>
      simp only [Gen.on, Gen.field, Gen.scalar]
      split_ifs <;> simp [Stmt.Inner]
    | pointer key value =>
      simp only [Gen.on, Gen.field, Gen.pointer]
      split_ifs <;> simp [Stmt.Inner]
    | bitset value =>
      simp only [Gen.on, Gen.field, Gen.bitset]
      split <;> simp [Stmt.Inner]

theorem linesText_append (lines more : List (Text × Stmt)) :
    linesText (lines ++ more) = linesText lines ++ linesText more := List.flatMap_append

theorem Headless.append {lines more : List (Text × Stmt)} (h : Headless lines)
    (hmore : Headless more) : Headless (lines ++ more) := by
  intro line hline
  rcases List.mem_append.mp hline with hline | hline
  · exact h line hline
  · exact hmore line hline

variable {camelize} {g g' : Gen} {before : List (Text × Stmt)} {types : List Text}

/-- More lines go to the end of the last function, or to what is before the first. -/
theorem Gen.Laid.more (h : g.Laid camelize before types) {more : List (Text × Stmt)}
    (hsource : g'.source = g.source ++ more) (hmore : Headless more)
    (hheader : g'.header = g.header) :
    g'.Laid camelize (if types = [] then before ++ more else before) types := by
  obtain ⟨hbefore, defined, htypes, hbodies, htext, hdeclared⟩ := h
  have htext' : g'.sourceText
      = linesText before ++ (defined.flatMap (Defined.text camelize) ++ linesText more) := by
    unfold Gen.sourceText at htext ⊢
    rw [hsource, linesText_append, htext, List.append_assoc]
  have hdeclared' : g'.headerText
      = types.flatMap fun type => declareText (builderHead camelize type) := by
    unfold Gen.headerText at hdeclared ⊢
    rw [hheader, hdeclared]
  rcases List.eq_nil_or_concat defined with rfl | ⟨init, last, rfl⟩
  · rw [if_pos (show types = [] from htypes.symm)]
    refine ⟨hbefore.append hmore, [], htypes, hbodies, ?_, hdeclared'⟩
    rw [htext', linesText_append]
    simp
  · have hne : types ≠ [] := by
      rw [← htypes]
      simp
    rw [if_neg hne]
    refine ⟨hbefore, init ++ [{ last with body := last.body ++ more }], ?_, ?_, ?_, hdeclared'⟩
    · rw [← htypes]
      simp
    · intro d hd
      rcases List.mem_append.mp hd with hd | hd
      · exact hbodies d (by simp [hd])
      · obtain rfl := List.mem_singleton.mp hd
        exact (hbodies last (by simp)).append hmore
    · rw [htext']
      simp [Defined.text, linesText_append]

/-- A typedef begins a function, and declares it. -/
theorem Gen.Laid.typedef (h : g.Laid camelize before types) (name : Text) :
    (g.typedef camelize name).Laid camelize before (types ++ [name]) := by
  obtain ⟨hbefore, defined, htypes, hbodies, htext, hdeclared⟩ := h
  refine ⟨hbefore, defined ++ [⟨name, []⟩], by simp [htypes], ?_, ?_, ?_⟩
  · intro d hd
    rcases List.mem_append.mp hd with hd | hd
    · exact hbodies d hd
    · obtain rfl := List.mem_singleton.mp hd
      exact headless_nil
  · have hline : linesText [([], .head (builderName camelize name) name)]
        = Defined.text camelize ⟨name, []⟩ := by
      simp only [linesText, List.flatMap_cons, List.flatMap_nil, Stmt.render, Defined.text,
        builderHead, parameterText, List.append_assoc, List.append_nil, List.nil_append]
      rfl
    unfold Gen.sourceText at htext ⊢
    simp only [Gen.typedef, Gen.toSource, Gen.toHeader, linesText_append, htext, hline,
      List.flatMap_append, List.flatMap_cons, List.flatMap_nil, List.append_nil,
      List.append_assoc]
  · have hline : txt "struct json_object* " ++ builderName camelize name ++ txt "(struct " ++
        name ++ txt " *" ++ name ++ txt ");\r\n" = declareText (builderHead camelize name) := by
      simp only [declareText, builderHead, parameterText, List.append_assoc]
      rfl
    unfold Gen.headerText at hdeclared ⊢
    simp only [Gen.typedef, Gen.toSource, Gen.toHeader, List.flatten_append, hdeclared, hline,
      List.flatMap_append, List.flatten_cons, List.flatten_nil, List.flatMap_cons,
      List.flatMap_nil, List.append_nil]

/-- What is found in the lines keeps the files laid.  Once a struct has been opened, nothing is
written before it any more. -/
theorem Gen.Laid.founds : ∀ (fs : List Found) {g : Gen} {before : List (Text × Stmt)}
    {types : List Text}, g.Laid camelize before types →
      ∃ more, (fs.foldl (Gen.on camelize) g).Laid camelize (before ++ more)
          (types ++ fs.filterMap Found.opened) ∧
        (types ≠ [] → more = []) ∧ ∀ name rest, fs = .typedef name :: rest → more = []
  | [], _, _, _, h => ⟨[], by simpa using h, fun _ => rfl, fun _ _ _ => rfl⟩
  | f :: fs, g, before, types, h => by
    rw [List.foldl_cons, List.filterMap_cons]
    cases hf : f.opened with
    | none =>
      have hnot : ∀ name rest, f :: fs ≠ .typedef name :: rest := by
        rintro name rest heq
        obtain ⟨rfl, -⟩ := List.cons.inj heq
        cases hf
      obtain ⟨more, hsource, hmore, hheader⟩ := g.on_writes camelize f hf
      have hnext := h.more hsource hmore hheader
      by_cases htypes : types = []
      · rw [if_pos htypes] at hnext
        obtain ⟨more', hlaid, -, -⟩ := hnext.founds fs
        rw [List.append_assoc] at hlaid
        exact ⟨more ++ more', hlaid, fun hne => absurd htypes hne,
          fun name rest heq => absurd heq (hnot name rest)⟩
      · rw [if_neg htypes] at hnext
        obtain ⟨more', hlaid, hnil, -⟩ := hnext.founds fs
        exact ⟨more', hlaid, hnil, fun name rest heq => absurd heq (hnot name rest)⟩
    | some name =>
      obtain rfl : f = .typedef name := by
        cases f <;> cases hf
        rfl
      obtain ⟨more, hlaid, hnil, -⟩ := (h.typedef name).founds fs
      have hnil := hnil (by simp)
      rw [List.append_assoc] at hlaid
      exact ⟨more, hlaid, fun _ => hnil, fun _ _ _ => hnil⟩

/-- The names add one function each, and its declaration. -/
theorem addInterfaces_spec : ∀ (top : List Text) (f : Files),
    top.foldl (addInterface camelize) f
      = { source := f.source ++ top.flatMap (wrapperText camelize)
          header := f.header ++ top.flatMap fun type => declareText (wrapperHead camelize type) }
  | [], f => by simp
  | intf :: top, f => by
    rw [List.foldl_cons, addInterfaces_spec top]
    simp only [addInterface, Files.toSource, Files.toHeader, wrapperText, declareText,
      List.flatMap_cons, List.append_assoc]

/-- **The header declares what the source defines.**  After its start the source consists of the
builders of the structs that lines open, in their order, and of the functions for the names; and the
header of their declarations.  Only what is found before any struct stands before the builders, and
no function begins there or within a builder. -/
theorem files_agree {top : List Text} {data : Text} {f : Files}
    (h : writeFiles camelize top data = some f) :
    ∃ (before : List (Text × Stmt)) (defined : List Defined),
      defined.map Defined.type = openedIn data ∧
      Headless before ∧ (∀ d ∈ defined, Headless d.body) ∧ (StartsStruct data → before = []) ∧
      f.source = startFiles.source ++ linesText before ++
        defined.flatMap (Defined.text camelize) ++ top.flatMap (wrapperText camelize) ∧
      f.header = startFiles.header ++
        ((openedIn data).flatMap fun type => declareText (builderHead camelize type)) ++
        txt "\r\n" ++ (top.flatMap fun type => declareText (wrapperHead camelize type)) ++
        headerEnd := by
  obtain ⟨g, hg, hf⟩ := Option.bind_eq_some_iff.mp h
  obtain rfl := Option.some.inj hf
  have hrun : g = (splitLines data).foldl (parseLine camelize) .init := by
    unfold generate at hg
    split at hg
    · cases hg
    · exact (Option.some.inj hg).symm
  have hinit : Gen.init.Laid camelize [] [] :=
    ⟨headless_nil, [], rfl, by simp, rfl, rfl⟩
  obtain ⟨before, hlaid, -, hstarts⟩ := hinit.founds ((splitLines data).flatMap found)
  rw [← foldl_parseLine, ← hrun, List.nil_append, List.nil_append] at hlaid
  obtain ⟨hbefore, defined, htypes, hbodies, htext, hdeclared⟩ := hlaid
  refine ⟨before, defined, htypes, hbefore, hbodies, ?_, ?_, ?_⟩
  · rintro ⟨name, rest, hfound⟩
    exact hstarts name rest hfound
  · unfold addTopInterface
    rw [addInterfaces_spec]
    simp only [Files.toSource, Files.toHeader, htext, List.append_assoc]
  · unfold addTopInterface
    rw [addInterfaces_spec]
    simp only [Files.toSource, Files.toHeader, hdeclared, List.append_assoc]
    rfl

end

theorem openedIn_radio : openedIn radioText = [txt "rate", txt "radio"] := by decide +kernel

/-- The statement for a file of two structs, and the names of the program: nothing stands before
the two builders. -/
theorem files_agree_radio : ∃ (f : Files) (rate radio : Defined),
    writeFiles id topInterface radioText = some f ∧
      rate.type = txt "rate" ∧ radio.type = txt "radio" ∧
      f.source = startFiles.source ++ (rate.text id ++ radio.text id) ++
        topInterface.flatMap (wrapperText id) := by
  obtain ⟨g, hg, -⟩ := generate_stmts id radio_reads (by simp)
  have hfiles : writeFiles id topInterface radioText
      = some ((addTopInterface id topInterface ((startFiles.toSource g.sourceText).toHeader
        g.headerText)).toHeader headerEnd) := by
    unfold writeFiles
    rw [hg]
    rfl
  obtain ⟨before, defined, htypes, -, -, hstarts, hsource, -⟩ := files_agree hfiles
  rw [openedIn_radio] at htypes
  obtain rfl := hstarts (radio_reads.startsStruct (by simp))
  obtain ⟨rate, defined, rfl⟩ := List.exists_cons_of_ne_nil
    (show defined ≠ [] by rintro rfl; cases htypes)
  obtain ⟨hrate, htypes⟩ := List.cons.inj htypes
  obtain ⟨radio, defined, rfl⟩ := List.exists_cons_of_ne_nil
    (show defined ≠ [] by rintro rfl; cases htypes)
  obtain ⟨hradio, htypes⟩ := List.cons.inj htypes
  obtain rfl := List.map_eq_nil_iff.mp htypes
  refine ⟨_, rate, radio, hfiles, hrate, hradio, ?_⟩
  rw [hsource]
  simp [linesText]

/-! ## 3. Calls from outside

A client calls the functions for the names, on an object that it owns.  Each call may find other
data in memory.  What the object has in the end is said key by key, without the calls in between
that do not matter. -/

/-- The function for a name, and the builder that it calls. -/
structure Wrapper where
  function : Text
  builder : Text
deriving DecidableEq

/-- `function(params, key, arg)`, with the structs in memory at the time. -/
structure ClientCall where
  function : Text
  key : Text
  heap : Nodes Value
  arg : Option Nat

section
variable {κ : Type}

/-- What a call makes of `params`: `json_object_object_add` puts the builder's value under the key,
in the place of what was there. -/
inductive Adds (lib : JsonLib κ) (literal : Text → Value) (fns : List (List Stmt))
    (wrappers : List Wrapper) : JsonObject κ → ClientCall → JsonObject κ → Prop
  | wrapper {params : JsonObject κ} {c : ClientCall} {w : Wrapper} {t : κ} (hw : w ∈ wrappers)
      (hname : w.function = c.function)
      (h : Gives lib literal c.heap fns w.builder [.pointer c.arg] t) :
      Adds lib literal fns wrappers params c (Function.update params c.key (some t))

/-- What calls make of it, one after the other. -/
inductive AddsAll (lib : JsonLib κ) (literal : Text → Value) (fns : List (List Stmt))
    (wrappers : List Wrapper) : JsonObject κ → List ClientCall → JsonObject κ → Prop
  | nil (params : JsonObject κ) : AddsAll lib literal fns wrappers params [] params
  | cons {o₁ o₂ o₃ : JsonObject κ} {c : ClientCall} {cs : List ClientCall}
      (h : Adds lib literal fns wrappers o₁ c o₂)
      (hs : AddsAll lib literal fns wrappers o₂ cs o₃) :
      AddsAll lib literal fns wrappers o₁ (c :: cs) o₃

/-- The object after values have been put under keys: the last one of each key, and what was there
under the others. -/
def latest (o : JsonObject κ) (added : List (Text × κ)) : JsonObject κ :=
  fun key => ((added.filter (fun a => a.1 = key)).getLast?.map Prod.snd).or (o key)

theorem latest_nil (o : JsonObject κ) : latest o [] = o := rfl

theorem latest_cons (o : JsonObject κ) (k : Text) (v : κ) (added : List (Text × κ)) :
    latest o ((k, v) :: added) = latest (Function.update o k (some v)) added := by
  funext key
  unfold latest
  by_cases hk : k = key
  · subst hk
    rw [List.filter_cons_of_pos (by simp), List.getLast?_cons, Function.update_self]
    cases (added.filter fun a => a.1 = k).getLast? <;> rfl
  · rw [List.filter_cons_of_neg (by simpa using hk), Function.update_of_ne (Ne.symm hk)]

variable (camelize : Text → Text)

def wrapper (type : Text) : Wrapper := ⟨wrapperName camelize type, builderName camelize type⟩

/-- The program links with the functions for the names: each has a struct, and none has the name of
another function.  `Links` is about the builders. -/
structure Offers (defs : List StructDef) (top : List Text) : Prop extends Links camelize defs where
  structs : ∀ type ∈ top, type ∈ defs.map StructDef.name
  names : ((builders camelize defs).map functionName ++ top.map (wrapperName camelize)).Nodup

variable {camelize} {lib : JsonLib κ} {literal : Text → Value} {defs : List StructDef}
  {top : List Text}

/-- A call of the function for a struct adds what the data shows, and nothing else. -/
theorem Means.adds_iff (hl : Offers camelize defs top) {d : StructDef} (hd : d ∈ defs)
    (hname : d.name ∈ top) {c : ClientCall} (hc : c.function = wrapperName camelize d.name) {t : κ}
    (h : Means .asBuilt lib literal c.heap defs (.struct d c.arg) t)
    (params params' : JsonObject κ) :
    Adds lib literal (builders camelize defs) (top.map (wrapper camelize)) params c params' ↔
      params' = Function.update params c.key (some t) := by
  have hgives := h.gives_iff camelize hl.toLinks hd
  constructor
  · rintro ⟨hw, hfunction, ht⟩
    obtain ⟨type, htype, rfl⟩ := List.mem_map.mp hw
    have hsame : type = d.name := List.inj_on_of_nodup_map (List.nodup_append.mp hl.names).2.1
      htype hname (hfunction.trans hc)
    subst hsame
    rw [(hgives _).mp ht]
  · rintro rfl
    exact .wrapper (List.mem_map_of_mem hname) hc.symm ((hgives t).mpr rfl)

/-- **What clients get.**  For a file of structs that links with the names: after any calls, each
with the memory of its time, `params` has under each key what the data showed in the last call with
that key, and under the others what it had. -/
theorem clients_iff {data : Text} (h : Reads data defs) (hne : defs ≠ [])
    (hl : Offers camelize defs top) : ∃ g, generate camelize data = some g ∧
      ∀ (lib : JsonLib κ) (literal : Text → Value) (calls : List (ClientCall × κ)),
        (∀ c ∈ calls, ∃ d ∈ defs, d.name ∈ top ∧ c.1.function = wrapperName camelize d.name ∧
          Means .asBuilt lib literal c.1.heap defs (.struct d c.1.arg) c.2) →
        ∀ params params' : JsonObject κ,
          AddsAll lib literal (functionsOf g.stmts) (top.map (wrapper camelize)) params
              (calls.map Prod.fst) params' ↔
            params' = latest params (calls.map fun c => (c.1.key, c.2)) := by
  obtain ⟨g, hg, hstmts⟩ := generate_stmts camelize h hne
  refine ⟨g, hg, ?_⟩
  rw [hstmts, functionsOf_builders]
  intro lib literal calls
  induction calls with
  | nil =>
    intro _ params params'
    rw [List.map_nil, List.map_nil, latest_nil]
    constructor
    · rintro ⟨⟩
      rfl
    · rintro rfl
      exact .nil _
  | cons c calls ih =>
    intro hcalls params params'
    obtain ⟨d, hd, hname, hc, hmeans⟩ := hcalls c List.mem_cons_self
    have hone := hmeans.adds_iff hl hd hname hc params
    have hrest := ih (fun x hx => hcalls x (List.mem_cons_of_mem _ hx))
    rw [List.map_cons, List.map_cons, latest_cons]
    constructor
    · rintro (_ | ⟨h₁, h₂⟩)
      rw [(hone _).mp h₁] at h₂
      exact (hrest _ _).mp h₂
    · intro heq
      exact .cons ((hone _).mpr rfl) ((hrest _ _).mpr heq)

end

/-- The calls of a client that puts a radio under a key, and then none. -/
def radioCalls : List (ClientCall × Int) :=
  [(⟨wrapperName id (txt "radio"), txt "r", radioHeap 9, some 0⟩, 19),
    (⟨wrapperName id (txt "radio"), txt "r", radioHeap 9, none⟩, 0)]

theorem clients_iff_radio : ∃ g, generate id radioText = some g ∧
    ∀ params', AddsAll sums two (functionsOf g.stmts)
        ([txt "radio"].map (wrapper id)) (fun _ => none) (radioCalls.map Prod.fst) params' ↔
      params' = latest (fun _ => none) [(txt "r", 19), (txt "r", 0)] := by
  have hoffers : Offers id [rateDef.struct, radioDef.struct] [txt "radio"] :=
    { radio_links with structs := by decide +kernel, names := by decide +kernel }
  obtain ⟨g, hg, hclients⟩ := @clients_iff Int id _ _ _ radio_reads (by simp) hoffers
  refine ⟨g, hg, hclients sums _ radioCalls ?_ _⟩
  have hradio : Means .asBuilt sums two (radioHeap 9)
      [rateDef.struct, radioDef.struct] (.struct radioDef.struct (some 0)) 19 := by
    refine radio_means rfl rfl rfl ⟨rfl, fun y hy x hx => ?_⟩ ⟨by decide, by decide⟩
    obtain rfl := Option.some.inj hx
    rcases List.mem_pair.mp hy with rfl | rfl <;> rfl
  intro c hcall
  rcases List.mem_pair.mp hcall with rfl | rfl
  · exact ⟨radioDef.struct, by simp, by decide +kernel, rfl, hradio⟩
  · exact ⟨radioDef.struct, by simp, by decide +kernel, rfl, .null radioDef⟩

end Capwap.Script

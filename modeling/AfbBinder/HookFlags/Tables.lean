import AfbBinder.Lib.Json

/-! The flags of the hooks and the tables of their names. -/
namespace AfbBinder.HookFlags
open Lib.Cstrings
open Lib.Json (ascii)

structure Flag where
  name : Bytes
  value : BitVec 32
  deriving DecidableEq, Repr

def afbHookFlagReqBegin : BitVec 32 := 0x00000001
def afbHookFlagReqEnd : BitVec 32 := 0x00000002
def afbHookFlagReqJson : BitVec 32 := 0x00000004
def afbHookFlagReqGet : BitVec 32 := 0x00000008
def afbHookFlagReqReply : BitVec 32 := 0x00000010
def afbHookFlagReqGetClientInfo : BitVec 32 := 0x00000020
def afbHookFlagReqLegacyContextGet : BitVec 32 := 0x00000040
def afbHookFlagReqLegacyContextSet : BitVec 32 := 0x00000080
def afbHookFlagReqAddref : BitVec 32 := 0x00000100
def afbHookFlagReqUnref : BitVec 32 := 0x00000200
def afbHookFlagReqSessionClose : BitVec 32 := 0x00000400
def afbHookFlagReqSessionSetLOA : BitVec 32 := 0x00000800
def afbHookFlagReqSubscribe : BitVec 32 := 0x00001000
def afbHookFlagReqUnsubscribe : BitVec 32 := 0x00002000
def afbHookFlagReqSubcall : BitVec 32 := 0x00004000
def afbHookFlagReqSubcallResult : BitVec 32 := 0x00008000
def afbHookFlagReqSubcallsync : BitVec 32 := 0x00010000
def afbHookFlagReqSubcallsyncResult : BitVec 32 := 0x00020000
def afbHookFlagReqVverbose : BitVec 32 := 0x00040000
def afbHookFlagReqLegacyStore : BitVec 32 := 0x00080000
def afbHookFlagReqLegacyUnstore : BitVec 32 := 0x00100000
def afbHookFlagReqHasPermission : BitVec 32 := 0x00200000
def afbHookFlagReqGetApplicationId : BitVec 32 := 0x00400000
def afbHookFlagReqContextMake : BitVec 32 := 0x00800000
def afbHookFlagReqGetUid : BitVec 32 := 0x01000000
def afbHookFlagsReqLife : BitVec 32 := afbHookFlagReqBegin ||| afbHookFlagReqEnd
def afbHookFlagsReqArgs : BitVec 32 := afbHookFlagReqJson ||| afbHookFlagReqGet
def afbHookFlagsReqSession : BitVec 32 := afbHookFlagReqSessionClose ||| afbHookFlagReqSessionSetLOA
def afbHookFlagsReqEvent : BitVec 32 := afbHookFlagReqSubscribe ||| afbHookFlagReqUnsubscribe
def afbHookFlagsReqSubcalls : BitVec 32 :=
  afbHookFlagReqSubcall ||| afbHookFlagReqSubcallResult ||| afbHookFlagReqSubcallsync |||
    afbHookFlagReqSubcallsyncResult
def afbHookFlagsReqSecurity : BitVec 32 :=
  afbHookFlagReqHasPermission ||| afbHookFlagReqGetApplicationId ||| afbHookFlagReqGetUid |||
    afbHookFlagReqGetClientInfo
def afbHookFlagsReqRef : BitVec 32 := afbHookFlagReqAddref ||| afbHookFlagReqUnref
def afbHookFlagsReqContext : BitVec 32 :=
  afbHookFlagReqLegacyContextGet ||| afbHookFlagReqLegacyContextSet ||| afbHookFlagReqContextMake
def afbHookFlagsReqStores : BitVec 32 := afbHookFlagReqLegacyStore ||| afbHookFlagReqLegacyUnstore
def afbHookFlagsReqCommon : BitVec 32 :=
  afbHookFlagsReqLife ||| afbHookFlagsReqArgs ||| afbHookFlagReqReply |||
    afbHookFlagsReqSession ||| afbHookFlagsReqEvent ||| afbHookFlagsReqSubcalls |||
    afbHookFlagReqVverbose ||| afbHookFlagsReqSecurity
def afbHookFlagsReqExtra : BitVec 32 :=
  afbHookFlagsReqCommon ||| afbHookFlagsReqRef ||| afbHookFlagsReqContext |||
    afbHookFlagsReqStores
def afbHookFlagsReqAll : BitVec 32 := afbHookFlagsReqExtra
def afbHookFlagApiVverbose : BitVec 32 := 0x00000001
def afbHookFlagApiGetEventLoop : BitVec 32 := 0x00000002
def afbHookFlagApiGetUserBus : BitVec 32 := 0x00000004
def afbHookFlagApiGetSystemBus : BitVec 32 := 0x00000008
def afbHookFlagApiRootdirGetFd : BitVec 32 := 0x00000010
def afbHookFlagApiRootdirOpenLocale : BitVec 32 := 0x00000020
def afbHookFlagApiQueueJob : BitVec 32 := 0x00000040
def afbHookFlagApiRequireApi : BitVec 32 := 0x00000080
def afbHookFlagApiAddAlias : BitVec 32 := 0x00000100
def afbHookFlagApiEventBroadcast : BitVec 32 := 0x00000200
def afbHookFlagApiEventMake : BitVec 32 := 0x00000400
def afbHookFlagApiNewApi : BitVec 32 := 0x00000800
def afbHookFlagApiApiSetVerbs : BitVec 32 := 0x00001000
def afbHookFlagApiApiAddVerb : BitVec 32 := 0x00002000
def afbHookFlagApiApiDelVerb : BitVec 32 := 0x00004000
def afbHookFlagApiApiSetOnEvent : BitVec 32 := 0x00008000
def afbHookFlagApiApiSetOnInit : BitVec 32 := 0x00010000
def afbHookFlagApiApiSeal : BitVec 32 := 0x00020000
def afbHookFlagApiEventHandlerAdd : BitVec 32 := 0x00040000
def afbHookFlagApiEventHandlerDel : BitVec 32 := 0x00080000
def afbHookFlagApiCall : BitVec 32 := 0x00100000
def afbHookFlagApiCallsync : BitVec 32 := 0x00200000
def afbHookFlagApiClassProvide : BitVec 32 := 0x00400000
def afbHookFlagApiClassRequire : BitVec 32 := 0x00800000
def afbHookFlagApiDeleteApi : BitVec 32 := 0x01000000
def afbHookFlagApiStart : BitVec 32 := 0x02000000
def afbHookFlagApiOnEvent : BitVec 32 := 0x04000000
def afbHookFlagApiLegacyUnstoreReq : BitVec 32 := 0x08000000
def afbHookFlagApiOnEventHandler : BitVec 32 := 0x10000000
def afbHookFlagApiSettings : BitVec 32 := 0x20000000
def afbHookFlagsApiCommon : BitVec 32 :=
  afbHookFlagApiVverbose ||| afbHookFlagApiEventBroadcast ||| afbHookFlagApiEventMake |||
    afbHookFlagApiCall ||| afbHookFlagApiCallsync ||| afbHookFlagApiStart |||
    afbHookFlagApiQueueJob ||| afbHookFlagApiSettings
def afbHookFlagsApiExtra : BitVec 32 :=
  afbHookFlagApiGetEventLoop ||| afbHookFlagApiGetUserBus ||| afbHookFlagApiGetSystemBus |||
    afbHookFlagApiRootdirGetFd ||| afbHookFlagApiRootdirOpenLocale |||
    afbHookFlagApiLegacyUnstoreReq
def afbHookFlagsApiApi : BitVec 32 :=
  afbHookFlagApiNewApi ||| afbHookFlagApiApiSetVerbs ||| afbHookFlagApiApiAddVerb |||
    afbHookFlagApiApiDelVerb ||| afbHookFlagApiApiSetOnEvent ||| afbHookFlagApiApiSetOnInit |||
    afbHookFlagApiApiSeal ||| afbHookFlagApiClassProvide ||| afbHookFlagApiClassRequire |||
    afbHookFlagApiRequireApi ||| afbHookFlagApiAddAlias ||| afbHookFlagApiDeleteApi
def afbHookFlagsApiEvent : BitVec 32 :=
  afbHookFlagApiEventBroadcast ||| afbHookFlagApiEventMake ||| afbHookFlagApiEventHandlerAdd |||
    afbHookFlagApiEventHandlerDel ||| afbHookFlagApiOnEvent ||| afbHookFlagApiOnEventHandler
def afbHookFlagsApiAll : BitVec 32 :=
  afbHookFlagsApiCommon ||| afbHookFlagsApiExtra ||| afbHookFlagsApiApi ||| afbHookFlagsApiEvent
def afbHookFlagsApiSvcAll : BitVec 32 :=
  afbHookFlagApiStart ||| afbHookFlagApiStart ||| afbHookFlagApiOnEvent |||
    afbHookFlagApiOnEvent ||| afbHookFlagApiCall ||| afbHookFlagApiCall |||
    afbHookFlagApiCallsync ||| afbHookFlagApiCallsync
def afbHookFlagsApiDitfCommon : BitVec 32 :=
  afbHookFlagApiVverbose ||| afbHookFlagApiEventMake ||| afbHookFlagApiEventBroadcast |||
    afbHookFlagApiEventBroadcast ||| afbHookFlagApiAddAlias
def afbHookFlagsApiDitfExtra : BitVec 32 :=
  afbHookFlagApiGetEventLoop ||| afbHookFlagApiGetUserBus ||| afbHookFlagApiGetSystemBus |||
    afbHookFlagApiRootdirGetFd ||| afbHookFlagApiRootdirOpenLocale ||| afbHookFlagApiQueueJob |||
    afbHookFlagApiLegacyUnstoreReq ||| afbHookFlagApiRequireApi ||| afbHookFlagApiRequireApi
def afbHookFlagsApiDitfAll : BitVec 32 := afbHookFlagsApiDitfCommon ||| afbHookFlagsApiDitfExtra
def afbHookFlagEvtCreate : BitVec 32 := 0x000001
def afbHookFlagEvtPushBefore : BitVec 32 := 0x000002
def afbHookFlagEvtPushAfter : BitVec 32 := 0x000004
def afbHookFlagEvtBroadcastBefore : BitVec 32 := 0x000008
def afbHookFlagEvtBroadcastAfter : BitVec 32 := 0x000010
def afbHookFlagEvtName : BitVec 32 := 0x000020
def afbHookFlagEvtAddref : BitVec 32 := 0x000040
def afbHookFlagEvtUnref : BitVec 32 := 0x000080
def afbHookFlagsEvtCommon : BitVec 32 := afbHookFlagEvtPushBefore ||| afbHookFlagEvtBroadcastBefore
def afbHookFlagsEvtExtra : BitVec 32 :=
  afbHookFlagsEvtCommon ||| afbHookFlagEvtPushAfter ||| afbHookFlagEvtBroadcastAfter |||
    afbHookFlagEvtCreate ||| afbHookFlagEvtAddref ||| afbHookFlagEvtUnref
def afbHookFlagsEvtAll : BitVec 32 := afbHookFlagsEvtExtra ||| afbHookFlagEvtName
def afbHookFlagSessionCreate : BitVec 32 := 0x000001
def afbHookFlagSessionClose : BitVec 32 := 0x000002
def afbHookFlagSessionDestroy : BitVec 32 := 0x000004
def afbHookFlagSessionRenew : BitVec 32 := 0x000008
def afbHookFlagSessionAddref : BitVec 32 := 0x000010
def afbHookFlagSessionUnref : BitVec 32 := 0x000020
def afbHookFlagsSessionCommon : BitVec 32 :=
  afbHookFlagSessionCreate ||| afbHookFlagSessionClose ||| afbHookFlagSessionRenew
def afbHookFlagsSessionAll : BitVec 32 :=
  afbHookFlagsSessionCommon ||| afbHookFlagSessionDestroy ||| afbHookFlagSessionAddref |||
    afbHookFlagSessionUnref
def afbHookFlagGlobalVverbose : BitVec 32 := 0x000001
def afbHookFlagsGlobalAll : BitVec 32 := afbHookFlagGlobalVverbose

def xreqFlags : List Flag :=
  [⟨ascii "addref", afbHookFlagReqAddref⟩,
    ⟨ascii "all", afbHookFlagsReqAll⟩,
    ⟨ascii "args", afbHookFlagsReqArgs⟩,
    ⟨ascii "begin", afbHookFlagReqBegin⟩,
    ⟨ascii "common", afbHookFlagsReqCommon⟩,
    ⟨ascii "context", afbHookFlagsReqContext⟩,
    ⟨ascii "context_get", afbHookFlagReqLegacyContextGet⟩,
    ⟨ascii "context_make", afbHookFlagReqContextMake⟩,
    ⟨ascii "context_set", afbHookFlagReqLegacyContextSet⟩,
    ⟨ascii "end", afbHookFlagReqEnd⟩,
    ⟨ascii "event", afbHookFlagsReqEvent⟩,
    ⟨ascii "extra", afbHookFlagsReqExtra⟩,
    ⟨ascii "get", afbHookFlagReqGet⟩,
    ⟨ascii "get_application_id", afbHookFlagReqGetApplicationId⟩,
    ⟨ascii "get_client_info", afbHookFlagReqGetClientInfo⟩,
    ⟨ascii "get_uid", afbHookFlagReqGetUid⟩,
    ⟨ascii "has_permission", afbHookFlagReqHasPermission⟩,
    ⟨ascii "json", afbHookFlagReqJson⟩,
    ⟨ascii "life", afbHookFlagsReqLife⟩,
    ⟨ascii "ref", afbHookFlagsReqRef⟩,
    ⟨ascii "reply", afbHookFlagReqReply⟩,
    ⟨ascii "security", afbHookFlagsReqSecurity⟩,
    ⟨ascii "session", afbHookFlagsReqSession⟩,
    ⟨ascii "session_close", afbHookFlagReqSessionClose⟩,
    ⟨ascii "session_set_LOA", afbHookFlagReqSessionSetLOA⟩,
    ⟨ascii "store", afbHookFlagReqLegacyStore⟩,
    ⟨ascii "stores", afbHookFlagsReqStores⟩,
    ⟨ascii "subcall", afbHookFlagReqSubcall⟩,
    ⟨ascii "subcall_result", afbHookFlagReqSubcallResult⟩,
    ⟨ascii "subcalls", afbHookFlagsReqSubcalls⟩,
    ⟨ascii "subcallsync", afbHookFlagReqSubcallsync⟩,
    ⟨ascii "subcallsync_result", afbHookFlagReqSubcallsyncResult⟩,
    ⟨ascii "subscribe", afbHookFlagReqSubscribe⟩,
    ⟨ascii "unref", afbHookFlagReqUnref⟩,
    ⟨ascii "unstore", afbHookFlagReqLegacyUnstore⟩,
    ⟨ascii "unsubscribe", afbHookFlagReqUnsubscribe⟩,
    ⟨ascii "vverbose", afbHookFlagReqVverbose⟩]

def apiFlags : List Flag :=
  [⟨ascii "add_alias", afbHookFlagApiAddAlias⟩,
    ⟨ascii "all", afbHookFlagsApiAll⟩,
    ⟨ascii "api_add_verb", afbHookFlagApiApiAddVerb⟩,
    ⟨ascii "api", afbHookFlagsApiApi⟩,
    ⟨ascii "api_del_verb", afbHookFlagApiApiDelVerb⟩,
    ⟨ascii "api_seal", afbHookFlagApiApiSeal⟩,
    ⟨ascii "api_set_on_event", afbHookFlagApiApiSetOnEvent⟩,
    ⟨ascii "api_set_on_init", afbHookFlagApiApiSetOnInit⟩,
    ⟨ascii "api_set_verbs", afbHookFlagApiApiSetVerbs⟩,
    ⟨ascii "call", afbHookFlagApiCall⟩,
    ⟨ascii "callsync", afbHookFlagApiCallsync⟩,
    ⟨ascii "class_provide", afbHookFlagApiClassProvide⟩,
    ⟨ascii "class_require", afbHookFlagApiClassRequire⟩,
    ⟨ascii "common", afbHookFlagsApiCommon⟩,
    ⟨ascii "delete_api", afbHookFlagApiDeleteApi⟩,
    ⟨ascii "event", afbHookFlagsApiEvent⟩,
    ⟨ascii "event_broadcast", afbHookFlagApiEventBroadcast⟩,
    ⟨ascii "event_handler_add", afbHookFlagApiEventHandlerAdd⟩,
    ⟨ascii "event_handler_del", afbHookFlagApiEventHandlerDel⟩,
    ⟨ascii "event_make", afbHookFlagApiEventMake⟩,
    ⟨ascii "extra", afbHookFlagsApiExtra⟩,
    ⟨ascii "get_event_loop", afbHookFlagApiGetEventLoop⟩,
    ⟨ascii "get_system_bus", afbHookFlagApiGetSystemBus⟩,
    ⟨ascii "get_user_bus", afbHookFlagApiGetUserBus⟩,
    ⟨ascii "legacy_unstore_req", afbHookFlagApiLegacyUnstoreReq⟩,
    ⟨ascii "new_api", afbHookFlagApiNewApi⟩,
    ⟨ascii "on_event", afbHookFlagApiOnEvent⟩,
    ⟨ascii "on_event_handler", afbHookFlagApiOnEventHandler⟩,
    ⟨ascii "queue_job", afbHookFlagApiQueueJob⟩,
    ⟨ascii "require_api", afbHookFlagApiRequireApi⟩,
    ⟨ascii "rootdir_get_fd", afbHookFlagApiRootdirGetFd⟩,
    ⟨ascii "rootdir_open_locale", afbHookFlagApiRootdirOpenLocale⟩,
    ⟨ascii "settings", afbHookFlagApiSettings⟩,
    ⟨ascii "start", afbHookFlagApiStart⟩,
    ⟨ascii "vverbose", afbHookFlagApiVverbose⟩]

def evtFlags : List Flag :=
  [⟨ascii "addref", afbHookFlagEvtAddref⟩,
    ⟨ascii "all", afbHookFlagsEvtAll⟩,
    ⟨ascii "broadcast_after", afbHookFlagEvtBroadcastAfter⟩,
    ⟨ascii "broadcast_before", afbHookFlagEvtBroadcastBefore⟩,
    ⟨ascii "common", afbHookFlagsEvtCommon⟩,
    ⟨ascii "create", afbHookFlagEvtCreate⟩,
    ⟨ascii "extra", afbHookFlagsEvtExtra⟩,
    ⟨ascii "name", afbHookFlagEvtName⟩,
    ⟨ascii "push_after", afbHookFlagEvtPushAfter⟩,
    ⟨ascii "push_before", afbHookFlagEvtPushBefore⟩,
    ⟨ascii "unref", afbHookFlagEvtUnref⟩]

def sessionFlags : List Flag :=
  [⟨ascii "addref", afbHookFlagSessionAddref⟩,
    ⟨ascii "all", afbHookFlagsSessionAll⟩,
    ⟨ascii "close", afbHookFlagSessionClose⟩,
    ⟨ascii "common", afbHookFlagsSessionCommon⟩,
    ⟨ascii "create", afbHookFlagSessionCreate⟩,
    ⟨ascii "destroy", afbHookFlagSessionDestroy⟩,
    ⟨ascii "renew", afbHookFlagSessionRenew⟩,
    ⟨ascii "unref", afbHookFlagSessionUnref⟩]

def globalFlags : List Flag :=
  [⟨ascii "all", afbHookFlagsGlobalAll⟩,
    ⟨ascii "vverbose", afbHookFlagGlobalVverbose⟩]

def legacyDitfFlags : List Flag :=
  [⟨ascii "all", afbHookFlagsApiDitfAll⟩,
    ⟨ascii "common", afbHookFlagsApiDitfCommon⟩,
    ⟨ascii "event_broadcast_after", afbHookFlagApiEventBroadcast⟩,
    ⟨ascii "event_broadcast_before", afbHookFlagApiEventBroadcast⟩,
    ⟨ascii "event_make", afbHookFlagApiEventMake⟩,
    ⟨ascii "extra", afbHookFlagsApiDitfExtra⟩,
    ⟨ascii "get_event_loop", afbHookFlagApiGetEventLoop⟩,
    ⟨ascii "get_system_bus", afbHookFlagApiGetSystemBus⟩,
    ⟨ascii "get_user_bus", afbHookFlagApiGetUserBus⟩,
    ⟨ascii "queue_job", afbHookFlagApiQueueJob⟩,
    ⟨ascii "require_api", afbHookFlagApiRequireApi⟩,
    ⟨ascii "require_api_result", afbHookFlagApiRequireApi⟩,
    ⟨ascii "rootdir_get_fd", afbHookFlagApiRootdirGetFd⟩,
    ⟨ascii "rootdir_open_locale", afbHookFlagApiRootdirOpenLocale⟩,
    ⟨ascii "unstore_req", afbHookFlagApiLegacyUnstoreReq⟩,
    ⟨ascii "vverbose", afbHookFlagApiVverbose⟩]

def legacySvcFlags : List Flag :=
  [⟨ascii "all", afbHookFlagsApiSvcAll⟩,
    ⟨ascii "call", afbHookFlagApiCall⟩,
    ⟨ascii "call_result", afbHookFlagApiCall⟩,
    ⟨ascii "callsync", afbHookFlagApiCallsync⟩,
    ⟨ascii "callsync_result", afbHookFlagApiCallsync⟩,
    ⟨ascii "on_event_after", afbHookFlagApiOnEvent⟩,
    ⟨ascii "on_event_before", afbHookFlagApiOnEvent⟩,
    ⟨ascii "start_after", afbHookFlagApiStart⟩,
    ⟨ascii "start_before", afbHookFlagApiStart⟩]

/-- The tables of the file. -/
inductive Table where
  | xreq
  | api
  | evt
  | session
  | global
  | legacyDitf
  | legacySvc
  deriving DecidableEq, Repr

def Table.flags : Table → List Flag
  | .xreq => xreqFlags
  | .api => apiFlags
  | .evt => evtFlags
  | .session => sessionFlags
  | .global => globalFlags
  | .legacyDitf => legacyDitfFlags
  | .legacySvc => legacySvcFlags

end AfbBinder.HookFlags

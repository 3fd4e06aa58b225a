import MirageLambda.Common.Manifest
import MirageLambda.Common.Sha256
import MirageLambda.Lib.Segment
import MirageLambda.Common.ConstantTime
import MirageLambda.Common.Bundle
import MirageLambda.Common.BundleGrammar
import MirageLambda.Common.BundleRoundtrip
import MirageLambda.Common.BundleRaises
import MirageLambda.Lib.SlotTable
import MirageLambda.Qjs.HandleTable
import MirageLambda.Qjs.HandleRuns
import MirageLambda.Lib.RingBuffer
import MirageLambda.Qjs.HostQueue
import MirageLambda.Qjs.Stubs
import MirageLambda.Qjs.Promises
import MirageLambda.Control.Registry
import MirageLambda.Control.Admission
import MirageLambda.Control.ArtifactStore
import MirageLambda.Common.BoundedBytes
import MirageLambda.Common.Protocol
import MirageLambda.Control.Scheduler
import MirageLambda.Worker.CapabilityBroker
import MirageLambda.Lib.Prog
import MirageLambda.Qjs.Engine
import MirageLambda.Qjs.Serving
import MirageLambda.Worker.RuntimeHost
import MirageLambda.Control.WorkerPool
import MirageLambda.Control.Server
import MirageLambda.Control.Integrity
import MirageLambda.Control.Aliases
import MirageLambda.Control.InvokeExits
import MirageLambda.Common.CanonicalText
import MirageLambda.Common.BundleCanonical
import MirageLambda.Control.Loading
import MirageLambda.Qjs.FailedCalls
import MirageLambda.Qjs.Ownership
import MirageLambda.Qjs.Settlement
import MirageLambda.Control.Outcomes
import MirageLambda.Control.AdmissionRuns
import MirageLambda.Control.InvocationIds
import MirageLambda.Control.Quotas
import MirageLambda.Control.RevisionNames
import MirageLambda.Common.JsonText
import MirageLambda.Control.Checkpoint
import MirageLambda.Control.Restart
import MirageLambda.Control.ArtifactRuns
import MirageLambda.Lib.Strtol
import MirageLambda.Qjs.Limits
import MirageLambda.Control.Refusals
import MirageLambda.Lib.Fips180
import MirageLambda.Common.Sha256Correct
import MirageLambda.Lib.Paths
import MirageLambda.Qjs.ModuleLoader
import MirageLambda.Common.ManifestOrder
import MirageLambda.Control.CompareAndSet
import MirageLambda.Qjs.ParseJson
import MirageLambda.Worker.Answers
import MirageLambda.Worker.Delivery
import MirageLambda.Qjs.Stringify
import MirageLambda.Control.Results
import MirageLambda.Common.CompiledGrants
import MirageLambda.Control.Digests
import MirageLambda.Common.BoundedRuns
import MirageLambda.Control.Assignments
import MirageLambda.Common.Usage
import MirageLambda.Qjs.QueueMemory
import MirageLambda.Common.ModulePathGrammar
import MirageLambda.Common.InvokeBindings
import MirageLambda.Common.HttpPolicies
import MirageLambda.Common.ManifestAccepts
import MirageLambda.Worker.Entropy
import MirageLambda.Control.Routes
import MirageLambda.Control.Authorization
import MirageLambda.Control.Deployments
import MirageLambda.Control.Ledger
import MirageLambda.Control.Records
import MirageLambda.Control.Tenants
import MirageLambda.Control.Engines
import MirageLambda.Lib.Packing
import MirageLambda.Worker.HostKv
import MirageLambda.Worker.LogRuns
import MirageLambda.Qjs.Utf16
import MirageLambda.Qjs.JsonRoundtrip
import MirageLambda.Control.ResultTexts
import MirageLambda.Qjs.Heap
import MirageLambda.Common.BundleSeals
import MirageLambda.Cli.Bundling
import MirageLambda.Qjs.ModuleNames
import MirageLambda.Qjs.ModuleLinking

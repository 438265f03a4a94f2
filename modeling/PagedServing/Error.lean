import PagedServing.Library.Binary32

/-! # Error values

The variants and the display texts of `src/error.rs`. Failure texts reach clients,
because a failed batch stores the text of its error in every request it fails.
-/

namespace PagedServing

inductive ConfigError where
  | invalidBlockSize (value : UInt32)
  | invalidMaxNumBlocks (value : UInt32)
  | invalidMaxBatchSize (value : UInt32)
  | invalidMaxNumSeqs (value : UInt32)
  | invalidMaxModelLen (value : UInt32)
  | invalidMaxTotalTokens (value : UInt32)
  | invalidMemoryThreshold (value : F32)
  | fileLoadError (message : String)
  | fileSaveError (message : String)
  | parseError (message : String)
  | missingTokenizerPath
  | invalidServerPort (port : UInt16)
  | invalidModelName
  | batchSizeExceedNumSeqs (maxBatchSize maxNumSeqs : UInt32)
  deriving DecidableEq

def ConfigError.display : ConfigError → String
  | .invalidBlockSize n => "无效的 block_size: 必须大于 0，实际值为 " ++ toString n
  | .invalidMaxNumBlocks n => "无效的 max_num_blocks: 必须大于 0，实际值为 " ++ toString n
  | .invalidMaxBatchSize n => "无效的 max_batch_size: 必须大于 0，实际值为 " ++ toString n
  | .invalidMaxNumSeqs n => "无效的 max_num_seqs: 必须大于 0，实际值为 " ++ toString n
  | .invalidMaxModelLen n => "无效的 max_model_len: 必须大于 0，实际值为 " ++ toString n
  | .invalidMaxTotalTokens n => "无效的 max_total_tokens: 必须大于 0，实际值为 " ++ toString n
  | .invalidMemoryThreshold x =>
      "无效的 memory_threshold: 必须在 (0.0, 1.0] 范围内，实际值为 " ++ x.display
  | .fileLoadError message => "加载配置文件失败: " ++ message
  | .fileSaveError message => "保存配置文件失败: " ++ message
  | .parseError message => "解析配置失败: " ++ message
  | .missingTokenizerPath => "缺少 HuggingFace tokenizer 路径"
  | .invalidServerPort port => "无效的服务端口: 必须大于 0，实际值为 " ++ toString port
  | .invalidModelName => "无效的模型名称: 不能为空"
  | .batchSizeExceedNumSeqs a b =>
      "max_batch_size (" ++ toString a ++ ") 大于 max_num_seqs (" ++ toString b ++ ")，配置不一致"

inductive EngineError where
  | config (error : ConfigError)
  | outOfBlocks
  | sequenceNotFound (seqId : Nat)
  | invalidBlockIndex (blockIdx : Nat)
  | invalidMaxTokens (value : UInt32)
  | invalidTemperature (value : F32)
  | invalidTopP (value : F32)
  | unsupportedGenerationMode (message : String)
  | tooManyStopSequences (count : Nat)
  | invalidLogprobs (count : Nat)
  | emptyInput
  | inputTooLong (length : Nat) (limit : UInt32)
  | totalLengthTooLong (length : Nat) (limit : UInt32)
  | backendError (message : String)
  | gpuTimeout
  | invalidOutput
  | kernelLaunchFailed (message : String)
  | memoryPressure
  | maxConcurrentSequencesReached (limit : UInt32)
  | requestNotFound (requestId : Nat)
  | invalidStateTransition (message : String)
  | tokenization (message : String)
  deriving DecidableEq

def EngineError.display : EngineError → String
  | .config error => "配置错误: " ++ error.display
  | .outOfBlocks => "物理块耗尽：没有可用的空闲块"
  | .sequenceNotFound seqId => "序列不存在: " ++ toString seqId
  | .invalidBlockIndex blockIdx => "无效的块索引: " ++ toString blockIdx
  | .invalidMaxTokens n => "无效的 max_tokens: 必须大于 0，实际值为 " ++ toString n
  | .invalidTemperature x =>
      "无效的 temperature: 必须在 [0.0, 2.0] 范围内，实际值为 " ++ x.display
  | .invalidTopP x => "无效的 top_p: 必须在 (0.0, 1.0] 范围内，实际值为 " ++ x.display
  | .unsupportedGenerationMode message => "后端不支持的生成模式: " ++ message
  | .tooManyStopSequences count =>
      "停止序列数量超出限制: " ++ toString count ++ "（最多 4 个）"
  | .invalidLogprobs count => "top logprobs 数量超出限制: " ++ toString count ++ "（最多 5 个）"
  | .emptyInput => "输入文本为空"
  | .inputTooLong length limit =>
      "输入超出最大模型长度: " ++ toString length ++ " > " ++ toString limit
  | .totalLengthTooLong length limit =>
      "请求总长度超出最大模型长度: " ++ toString length ++ " > " ++ toString limit
  | .backendError message => "计算后端错误: " ++ message
  | .gpuTimeout => "GPU 超时"
  | .invalidOutput => "无效输出: 检测到 NaN 或 Inf"
  | .kernelLaunchFailed message => "Kernel 启动失败: " ++ message
  | .memoryPressure => "内存压力: 无法接受新的 prefill 请求"
  | .maxConcurrentSequencesReached limit => "超出最大并发序列数: " ++ toString limit
  | .requestNotFound requestId => "请求不存在: " ++ toString requestId
  | .invalidStateTransition message => "无效的状态转换: " ++ message
  | .tokenization message => "分词错误: " ++ message

end PagedServing
